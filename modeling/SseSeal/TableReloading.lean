import SseSeal.BalancedDictionary
import SseSeal.KeywordColumns

/-! Several loads, one after another, on one client. Each makes a new dictionary, but the id of
the root stays that of the last one. -/
namespace TableReloading

open Bytes Objects ObjectArchive StateExcept StringCipher SortedMap OramReadPathEviction
open OramMemory OramAccessController ClientCache OdictClient ClientSession ClientTree Padding
open PaddedMemory SubOrams Dictionary BalancedDictionary KeywordIndex RangeIndex TableLoading
open RangeSearch KeywordColumns

structure Load where
  table : Table
  entropy : Entropy
  newDictionary : Str → Controller
  newController : Str → ℕ → Controller
  order : HashOrder

def Loader.forLoad (l : Loader) (load : Load) : Loader :=
  { l with
    newDictionary := load.newDictionary
    order := load.order
    setup := { l.setup with newController := load.newController } }

def loadTables (l : Loader) (loads : List Load) : SealM PUnit :=
  loads.forM fun load => adjDataIn (Loader.forLoad l load) load.entropy load.table

/-- What a load asks of the client, and of the storage of its oblivious memories. -/
structure Prepared (l : Loader) (load : Load) : Prop where
  loadable : Loadable (Loader.forLoad l load) load.table
  indexable : Indexable (Loader.forLoad l load) load.table
  dictionary : ∃ bucketSize blockNumber storage randGen o, (∀ k, storage.fails k = false) ∧
    construct.run (blank bucketSize blockNumber storage randGen) = .ok ⟨⟩ o ∧
    load.newDictionary load.table.filePath = ⟨o, 0⟩

/-- A search for each keyword of a table answers with the documents it is paired with, and with
dummies. -/
def Answers (l : Loader) (load : Load) (s : SealClient) (findPad : ℤ → ℤ) : Prop :=
  ∃ padded, adjPadding l.setup.log l.x l.setup.secretKey load.table.memory
      (countTable load.table.memory)
      load.entropy = some padded ∧
    ∀ w ∈ keys load.table.memory, ∃ answer extra i,
      (search (Loader.forLoad l load).setup l.codec l.fuel findPad w).run s.index =
        .ok answer i ∧
      answer.Perm ((load.table.memory.filter fun b => b.1 = w).map Prod.snd ++ extra) ∧
      ∀ d ∈ extra, (w, d) ∈ dummies load.table padded.1

variable {l : Loader} {load : Load} {loads : List Load} {t : Table} {e : Entropy}
  {s s' : SealClient} {codec : Codec Node} {c : Client} {m : ℤ → Option Str} {id : ℤ}
  {nodes : List Node} {fuel : ℕ}

structure Missing (id : ℤ) (c : Client) : Prop where
  memory : ∃ m, Serves c.controller m ∧ m id = none
  range : 0 < id ∧ id < 2 ^ 31
  uncached : c.cache.find? id = none

/-- A program that throws because there is nothing to deserialize. -/
def Starves {α : Type} (x : ClientM α) (c : Client) : Prop :=
  Ends x c (fun _ _ => False) fun e _ => e = .malformed

theorem Starves.bind {α β : Type} {x : ClientM α} {f : α → ClientM β} (h : Starves x c) :
    Starves (x >>= f) c := by
  apply Ends.bind h
  intro _ _ hfalse
  exact hfalse.elim

theorem starves_after {α β : Type} {x : ClientM α} {f : α → ClientM β}
    {post : α → Client → Prop} (hx : Returns x c post)
    (hf : ∀ a c', post a c' → Starves (f a) c') : Starves (x >>= f) c := hx.ends.bind hf

theorem cacheHelper_starves (hempty : codec.deserialize [] = none) (h : Missing id c) :
    Starves (cacheHelper codec id) c := by
  obtain ⟨m, hserves, hm⟩ := h.memory
  obtain ⟨hpos, hlt⟩ := h.range
  apply starves_after (findPosById_returns id)
  intro pos c' hc
  subst hc
  have hrange : 0 ≤ (Node.ofTag id pos).id ∧ (Node.ofTag id pos).id < 2 ^ 31 := ⟨hpos.le, hlt⟩
  apply starves_after (onController_returns (direct_read_returns hserves hrange))
  intro buffer _ hpost
  obtain ⟨k, ⟨hbuffer, _, _⟩, rfl⟩ := hpost
  have hnone : codec.deserialize buffer = none := by
    have hread : m (Node.ofTag id pos).id = none := hm
    rw [hbuffer, hread]
    exact hempty
  rw [hnone]
  exact ends_error rfl rfl

theorem readFromOram_starves (hempty : codec.deserialize [] = none) (h : Missing id c) :
    Starves (readFromOram codec id) c := by
  apply Starves.bind
  apply starves_after (orThrow_returns (codec.roundTrip _))
  intro _ c hpost
  obtain ⟨rfl, rfl⟩ := hpost
  apply starves_after returns_modify
  intro _ _ hstep
  subst hstep
  apply starves_after (cacheGet_miss (c := { c with readCount := c.readCount + 1 }) h.uncached)
  intro _ _ hpost
  obtain ⟨rfl, rfl⟩ := hpost
  rw [if_neg (by simp [Node.ofTag])]
  apply Starves.bind
  exact cacheHelper_starves hempty ⟨h.memory, h.range, h.uncached⟩

theorem insertPriv_starves (hempty : codec.deserialize [] = none) (h : Missing id c) (n : Node) :
    Starves (insertPriv codec n (fuel + 1) id) c := by
  rw [insertPriv, if_neg h.range.1.ne']
  apply Starves.bind
  exact readFromOram_starves hempty h

/-- An insertion into a dictionary that lacks its root throws. -/
theorem insertNodes_starves (hempty : codec.deserialize [] = none) (hf : 0 < fuel)
    (hm : ∃ m, Serves c.controller m ∧ m c.rootId = none) (hr : 0 < c.rootId ∧ c.rootId < 2 ^ 31)
    (pad : ℤ → ℤ) (hne : nodes ≠ []) : Starves (insertNodes codec fuel pad nodes) c := by
  have hmissing : Missing c.rootId { c with cache := c.cache.clear } := ⟨hm, hr, rfl⟩
  obtain ⟨n, nodes, rfl⟩ := List.exists_cons_of_ne_nil hne
  obtain ⟨fuel, rfl⟩ := Nat.exists_eq_succ_of_ne_zero hf.ne'
  apply starves_after returns_modify
  intro _ _ hstep
  subst hstep
  apply Starves.bind
  apply Starves.bind
  apply Starves.bind
  apply starves_after returns_get
  intro _ _ hpost
  obtain ⟨rfl, rfl⟩ := hpost
  apply Starves.bind
  exact insertPriv_starves hempty hmissing n

/-- A program that does not return, and throws nothing that `adj_data_in` catches. -/
def Aborts {σ α : Type} (x : EStateM IndexError σ α) (s : σ) : Prop :=
  Ends x s (fun _ _ => False) fun e _ => e ≠ .invalidArgument

theorem Aborts.bind {σ α β : Type} {x : EStateM IndexError σ α} {f : α → EStateM IndexError σ β}
    {s : σ} (h : Aborts x s) : Aborts (x >>= f) s := by
  apply Ends.bind h
  intro _ _ hfalse
  exact hfalse.elim

theorem aborts_after {σ α β : Type} {x : EStateM IndexError σ α} {f : α → EStateM IndexError σ β}
    {s : σ} {post : α → σ → Prop} (hx : Ends x s post fun e _ => e ≠ .invalidArgument)
    (hf : ∀ a t, post a t → Aborts (f a) t) : Aborts (x >>= f) s := hx.bind hf

theorem onClient_aborts {α : Type} {y : ClientM α} {i : Index} (h : Starves y i.client) :
    Aborts (onClient y) i := by
  apply (Ends.focus Index.client (fun c i => { i with client := c }) IndexError.client h).imp
  · intro _ _ hpost
    obtain ⟨_, hfalse, _⟩ := hpost
    exact hfalse
  · intro _ _ hpost
    obtain ⟨e, _, _, rfl, _⟩ := hpost
    simp

theorem onIndex_aborts {α : Type} {y : IndexM α} (h : Aborts y s.index) :
    Aborts (onIndex y) s := by
  apply (Ends.focus SealClient.index (fun i s => { s with index := i }) id h).imp
  · intro _ _ hpost
    obtain ⟨_, hfalse, _⟩ := hpost
    exact hfalse
  · intro _ _ hpost
    obtain ⟨e, _, he, rfl, _⟩ := hpost
    exact he

theorem makeNode_ends {first count : Dict Str ℕ} {w : Str} {i : Index} :
    Ends (makeNode first count w) i
      (fun _ i' => ∃ k, i' = { i with client := { i.client with nodeCount := k } })
      fun e _ => e ≠ .invalidArgument := by
  apply (orThrow_ends (by simp)).bind
  intro iw _ hpost
  obtain ⟨_, rfl⟩ := hpost
  apply (orThrow_ends (by simp)).bind
  intro cntw _ hpost
  obtain ⟨_, rfl⟩ := hpost
  exact ends_ok rfl ⟨_, rfl⟩

theorem makeNodes_ends {first count : Dict Str ℕ} {memory : Memory} {i : Index} :
    Ends (makeNodes first count memory) i
      (fun nodes i' => nodes.length = memory.length ∧
        ∃ k, i' = { i with client := { i.client with nodeCount := k } })
      fun e _ => e ≠ .invalidArgument := by
  induction memory generalizing i with
  | nil => exact ends_ok rfl ⟨rfl, i.client.nodeCount, rfl⟩
  | cons b memory ih =>
    apply makeNode_ends.bind
    intro node _ hpost
    obtain ⟨k, rfl⟩ := hpost
    apply ih.bind
    intro nodes _ hpost
    obtain ⟨hlen, k', rfl⟩ := hpost
    exact ends_ok rfl ⟨by simp [hlen], k', rfl⟩

theorem loadMemory_aborts {p : Setup} {i : Index} {memory : Memory} {mapKey : Str} {sort : KeySort}
    {x : ℕ} (hempty : codec.deserialize [] = none) (hf : 0 < fuel)
    (hm : ∃ m, Serves i.client.controller m ∧ m i.client.rootId = none)
    (hr : 0 < i.client.rootId ∧ i.client.rootId < 2 ^ 31) (pad : ℤ → ℤ) (hx : 1 < x)
    (hne : memory ≠ []) : Aborts (loadMemory p codec fuel pad sort x e mapKey memory) i := by
  apply aborts_after (orThrow_ends (by simp))
  rintro ⟨padded, count⟩ i ⟨hpadded, rfl⟩
  apply aborts_after returns_modify.ends
  intro _ _ hstep
  subst hstep
  apply aborts_after makeNodes_ends
  intro nodes i' hnodes
  obtain ⟨hlen, k, rfl⟩ := hnodes
  have hnodes : nodes ≠ [] := by
    obtain ⟨added, hadded, _⟩ := (adjPadding_aligned hx hpadded).added
    intro hnil
    rw [hnil, (sort.perm _).length_eq, hadded, List.length_append] at hlen
    have hpos := List.length_pos_iff.mpr hne
    simp at hlen
    omega
  apply Aborts.bind
  apply onClient_aborts
  exact insertNodes_starves (c := { i.client with nodeCount := k }) hempty hf hm hr pad hnodes

theorem loadColumns_ends (ht : t.WellFormed) {columns : List (Str × ℕ)} {r : Ranges}
    (hin : ∀ column ∈ columns, column.2 < t.columnNames.length) :
    Ends (loadColumns l t columns) r
      (fun memory _ => memory =
        columns.flatMap fun column => t.columnEntries column.1 (t.cells column.2))
      fun e _ => e ≠ .invalidArgument := by
  induction columns generalizing r with
  | nil => exact ends_ok rfl rfl
  | cons column columns ih =>
    obtain ⟨name, i⟩ := column
    obtain ⟨hcolumn, _⟩ := ht.getColumn (hin _ List.mem_cons_self)
    apply (orThrow_returns hcolumn).ends.bind
    intro _ _ hpost
    obtain ⟨rfl, rfl⟩ := hpost
    have hload : ∀ tmp mapKey r, Ends (loadColumn l.setup l.sort tmp mapKey) r
        (fun _ _ => True) fun e _ => e ≠ .invalidArgument := by
      intro tmp mapKey r
      apply returns_modify.ends.bind
      intro _ _ hstep
      subst hstep
      apply returns_modify.ends.bind
      intro _ _ hstep
      subst hstep
      apply (Ends.focus (controllersOf mapKey) (setControllers mapKey) IndexError.subOram
        (ends_any _ _)).imp
      · exact fun _ _ _ => trivial
      · intro _ _ hpost
        obtain ⟨e, _, _, rfl, _⟩ := hpost
        simp
    apply (hload _ _ _).bind
    intro _ r₁ _
    apply (ih fun column hcol => hin column (List.mem_cons_of_mem _ hcol)).bind
    intro memory r₂ hstep
    subst hstep
    exact ends_ok rfl rfl

/-- A dictionary to which only the block for the id 0 was written. -/
def Blank (s : SealClient) : Prop :=
  ∃ m, Serves s.index.client.controller m ∧ ∀ i ≠ 0, m i = none

theorem initDummyData_blank (hserves : Serves s.index.client.controller fun _ => none) :
    Returns (onIndex (onClient (initDummyData codec))) s fun _ s' =>
      Blank s' ∧ s'.index.client.rootId = s.index.client.rootId := by
  have hwrite := access_write_returns hserves (show (0 : ℤ) ≤ 0 ∧ (0 : ℤ) < 2 ^ 31 by decide)
    (codec.serialize (Node.ofTag 0 (-1)))
  have hclient : Returns (initDummyData codec) s.index.client fun _ c =>
      (∃ m, Serves c.controller m ∧ ∀ i ≠ 0, m i = none) ∧ c.rootId = s.index.client.rootId := by
    refine (onController_returns hwrite).bind ?_
    intro _ _ hpost
    obtain ⟨k, ⟨hk, _⟩, rfl⟩ := hpost
    exact returns_pure ⟨⟨_, hk, fun i hi => Function.update_of_ne hi _ _⟩, rfl⟩
  refine ((onClient_returns hclient).focus SealClient.index (fun i s => { s with index := i })
    (id : IndexError → IndexError)).imp ?_
  intro _ _ hpost
  obtain ⟨_, ⟨c, ⟨hm, hroot⟩, rfl⟩, rfl⟩ := hpost
  exact ⟨hm, hroot⟩

/-- With a root left from an earlier load, a load does not return. -/
theorem adjDataIn_fails (h : Prepared l load) (hempty : l.codec.deserialize [] = none)
    (hr : 0 < s.index.client.rootId ∧ s.index.client.rootId < 2 ^ 31) :
    (adjDataIn (Loader.forLoad l load) load.entropy load.table).run s ≠ .ok ⟨⟩ s' := by
  intro hrun
  have ht := h.loadable.table
  obtain ⟨_, _, _, _, o, hs, hbuild, hdict⟩ := h.dictionary
  have hserves := serves_construct hs hbuild
  have hopen : Returns (onIndex (onClient (openDictionary (Loader.forLoad l load)
      load.table.filePath))) s fun _ s₁ => s₁.index.client.controller = ⟨o, 0⟩ ∧
        s₁.index.client.rootId = s.index.client.rootId := ⟨⟨⟩, _, rfl, hdict, rfl⟩
  have haborts : Aborts (do
      onIndex (onClient (openDictionary (Loader.forLoad l load) load.table.filePath))
      onIndex (onClient (initDummyData l.codec))
      let memory ← onRanges (loadColumns (Loader.forLoad l load) load.table
        load.table.columnNames.zipIdx)
      onIndex (loadMemory (Loader.forLoad l load).setup l.codec l.fuel l.insertPad l.sort l.x
        load.entropy load.table.filePath memory)) s := by
    apply aborts_after hopen.ends
    intro _ s₁ hpost
    obtain ⟨hcontroller, hroot₁⟩ := hpost
    rw [← hcontroller] at hserves
    apply aborts_after (initDummyData_blank hserves).ends
    intro _ s₂ hpost
    obtain ⟨⟨m, hm, hnone⟩, hroot₂⟩ := hpost
    have hcolumns := Ends.focus SealClient.ranges (fun r s => { s with ranges := r })
      (id : IndexError → IndexError) (loadColumns_ends (l := Loader.forLoad l load)
        (r := s₂.ranges) ht fun column hc => zipIdx_index hc)
    have hcolumns : Ends (onRanges (loadColumns (Loader.forLoad l load) load.table
        load.table.columnNames.zipIdx)) s₂ (fun memory s₃ => memory = load.table.memory ∧
          s₃.index = s₂.index) fun e _ => e ≠ .invalidArgument := by
      apply hcolumns.imp
      · intro memory _ hpost
        obtain ⟨r, rfl, rfl⟩ := hpost
        exact ⟨rfl, rfl⟩
      · intro _ _ hpost
        obtain ⟨e, _, he, rfl, _⟩ := hpost
        exact he
    apply aborts_after hcolumns
    intro _ s₃ hpost
    obtain ⟨rfl, hindex⟩ := hpost
    apply onIndex_aborts
    rw [← hindex] at hm hroot₂
    have hr₃ : 0 < s₃.index.client.rootId ∧ s₃.index.client.rootId < 2 ^ 31 := by
      rwa [hroot₂, hroot₁]
    apply loadMemory_aborts hempty (Nat.zero_lt_of_lt h.indexable.fuel)
      ⟨m, hm, hnone _ hr₃.1.ne'⟩ hr₃ _ h.indexable.x
    exact h.loadable.memory_ne_nil h.indexable
  rcases caught_ok hrun with ⟨_, hok⟩ | herror
  · exact haborts.post_of_ok hok
  · exact haborts.bad_of_error herror rfl

theorem serving_rootId {p : Setup} {sorted : Memory} {count : Dict Str ℕ} {i : Index}
    (h : KeywordIndex.Serving p codec fuel sorted count i) (hne : sorted ≠ []) :
    0 < i.client.rootId ∧ i.client.rootId < 2 ^ 31 := by
  obtain ⟨nodes, V, hidle, hins, _, hindexes⟩ := h.client
  have hkeys : nodes.map Node.key ≠ [] := by
    rw [hindexes.key]
    simpa [keys] using hne
  obtain ⟨key, hkey⟩ := List.exists_mem_of_ne_nil _ hkeys
  have hentry := (mem_keys_treeOf nodes key).mpr hkey
  rw [hidle.rootId]
  have hroot : rootOf (treeOf nodes) ∈ ids (treeOf nodes) := by
    generalize treeOf nodes = tree at hentry
    cases tree with
    | nil => cases hentry
    | node a l r => simp [rootOf, ids, AvlTree.entries]
  obtain ⟨n, hn, hid⟩ := List.mem_map.mp (mem_ids_treeOf hroot)
  rw [← hid]
  exact hins.range n hn

theorem Prepared.loaded (h : Prepared l load) (k : Controller) :
    ∃ s, (adjDataIn (Loader.forLoad l load) load.entropy load.table).run (.fresh l k) = .ok ⟨⟩ s ∧
      Loads (Loader.forLoad l load) load.entropy load.table s := by
  obtain ⟨bucketSize, blockNumber, storage, randGen, o, hs, hbuild, hdict⟩ := h.dictionary
  have hreturns := adjDataIn_returns h.loadable h.indexable load.entropy k hs hbuild hdict
  obtain ⟨_, _, _, _, ⟨⟩, s, hrun, _⟩ := hreturns
  exact ⟨s, hrun, h.loadable, h.indexable,
    ⟨bucketSize, blockNumber, storage, randGen, o, hs, hbuild, hdict⟩, k, hrun⟩

theorem loads_rootId (h : Loads (Loader.forLoad l load) load.entropy load.table s) :
    0 < s.index.client.rootId ∧ s.index.client.rootId < 2 ^ 31 := by
  obtain ⟨padded, _, _, hlen, hserving⟩ := h.serving
  apply serving_rootId hserving
  intro hnil
  rw [hnil] at hlen
  exact absurd hlen (by simp)

theorem loadTables_fails {first second : Load}
    (h : ∀ load ∈ first :: second :: loads, Prepared l load)
    (hempty : l.codec.deserialize [] = none) (k : Controller) :
    (loadTables l (first :: second :: loads)).run (.fresh l k) ≠ .ok ⟨⟩ s := by
  intro hrun
  obtain ⟨s₁, hrun₁, hloads⟩ := (h first List.mem_cons_self).loaded k
  obtain ⟨_, s₂, hfirst, hrest⟩ := bind_ok hrun
  cases hrun₁.symm.trans hfirst
  obtain ⟨_, s₃, hrun₂, _⟩ := bind_ok hrest
  have hsecond : Prepared l second := h second (List.mem_cons_of_mem _ List.mem_cons_self)
  exact adjDataIn_fails hsecond hempty (loads_rootId hloads) hrun₂

/-- Calls of `adj_data_in` on one client all return, and leave the last table to be searched, if
and only if there is at most one of them. -/
theorem loadTables_iff (hloads : ∀ load ∈ loads, Prepared l load)
    (hempty : l.codec.deserialize [] = none) (k : Controller) (findPad : ℤ → ℤ) :
    (∃ s, (loadTables l loads).run (.fresh l k) = .ok ⟨⟩ s ∧
      ∀ load, loads.getLast? = some load → Answers l load s findPad) ↔ loads.length ≤ 1 := by
  match loads with
  | [] => exact ⟨fun _ => Nat.zero_le _, fun _ => ⟨_, rfl, by simp⟩⟩
  | [load] =>
    constructor
    · intro _
      exact le_rfl
    · intro _
      obtain ⟨s, hrun, hl⟩ := (hloads load List.mem_cons_self).loaded k
      refine ⟨s, (run_bind_ok hrun).trans rfl, ?_⟩
      intro last hlast
      cases hlast
      exact search_pairs hl findPad
  | first :: second :: loads =>
    constructor
    · rintro ⟨s, hrun, _⟩
      exact absurd hrun (loadTables_fails hloads hempty k)
    · intro hlen
      simp at hlen

def sampleLoad (o : Oram) : Load :=
  ⟨descending, ⟨fun k => k, 0, fun k => k, 0⟩, fun _ => ⟨o, 0⟩, fun _ _ => ⟨o, 0⟩, .newestFirst⟩

theorem sampleLoad_prepared {o : Oram}
    (hbuild : construct.run (blank 1 2 .new ⟨0, fun k => k, 0⟩) = .ok ⟨⟩ o) :
    Prepared (sampleLoader o) (sampleLoad o) := by
  have hserves := serves_construct (fun _ => rfl) hbuild
  obtain ⟨hl, hi⟩ := descending_loadable hserves
  exact ⟨hl, hi, ⟨1, 2, .new, ⟨0, fun k => k, 0⟩, o, fun _ => rfl, hbuild, rfl⟩⟩

theorem loadTables_iff_once :
    ∃ (o : Oram) (s : SealClient), construct.run (blank 1 2 .new ⟨0, fun k => k, 0⟩) = .ok ⟨⟩ o ∧
      (loadTables (sampleLoader o) [sampleLoad o]).run (.fresh (sampleLoader o) ⟨o, 0⟩) =
        .ok ⟨⟩ s ∧
      Answers (sampleLoader o) (sampleLoad o) s fun pad => pad := by
  obtain ⟨o, hbuild⟩ := construct_small
  have hload : ∀ load ∈ [sampleLoad o], Prepared (sampleLoader o) load := by
    intro load hload
    rw [List.mem_singleton.mp hload]
    exact sampleLoad_prepared hbuild
  obtain ⟨s, hrun, hanswers⟩ := (loadTables_iff hload rfl ⟨o, 0⟩ fun pad => pad).mpr (le_refl 1)
  exact ⟨o, s, hbuild, hrun, hanswers _ rfl⟩

theorem loadTables_twice :
    ∃ o : Oram, construct.run (blank 1 2 .new ⟨0, fun k => k, 0⟩) = .ok ⟨⟩ o ∧
      (∀ load ∈ [sampleLoad o, sampleLoad o], Prepared (sampleLoader o) load) ∧
      ∀ s, (loadTables (sampleLoader o) [sampleLoad o, sampleLoad o]).run
        (.fresh (sampleLoader o) ⟨o, 0⟩) ≠ .ok ⟨⟩ s := by
  obtain ⟨o, hbuild⟩ := construct_small
  have hload : ∀ load ∈ [sampleLoad o, sampleLoad o], Prepared (sampleLoader o) load := by
    intro load hload
    have heq : load = sampleLoad o := by simpa using hload
    rw [heq]
    exact sampleLoad_prepared hbuild
  exact ⟨o, hbuild, hload, fun s => loadTables_fails hload rfl ⟨o, 0⟩⟩

end TableReloading
