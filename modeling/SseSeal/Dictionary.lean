import SseSeal.ClientTree

/-! Runs of the oblivious dictionary: sessions of insertions and searches, one after another
from a fresh client. -/
namespace Dictionary

open Bytes Objects StateExcept StringCipher AvlTree BinaryTree OramReadPathEviction OramMemory
open OramAccessController ClientCache OdictClient ClientSession ClientTree

inductive Request where
  | insert (nodes : List Node)
  | find (key : Str)

section Runs

variable (codec : Codec Node) (fuel : ℕ) (insertPad findPad : ℤ → ℤ)

def Request.run : Request → ClientM (Option Node)
  | insert nodes => do
    insertNodes codec fuel insertPad nodes
    return none
  | find key => OdictClient.find codec fuel findPad key

def runRequests : List Request → ClientM (List (Option Node))
  | [] => return []
  | r :: requests => do
    let answer ← r.run codec fuel insertPad findPad
    let answers ← runRequests requests
    return answer :: answers

def serve (requests : List Request) : ClientM (List (Option Node)) := do
  initDummyData codec
  runRequests codec fuel insertPad findPad requests

end Runs

def Request.nodes : Request → List Node
  | insert nodes => nodes
  | find _ => []

def inserted (requests : List Request) : List Node := requests.flatMap Request.nodes

def treeOf (nodes : List Node) : BinaryTree Entry :=
  nodes.foldl (fun t n => insertEntry (entryOf n) t) .nil

def firstData (nodes : List Node) (key : Str) : Option Str :=
  (nodes.find? fun n => n.key = key).map Node.data

/-- Nodes as the callers of `insert` make them: value-initialised, with positive ids. -/
structure Insertable (nodes : List Node) : Prop where
  fresh : ∀ n ∈ nodes, n = Node.fresh n.id n.key n.data
  range : ∀ n ∈ nodes, 0 < n.id ∧ n.id < 2 ^ 31
  storable : ∀ n ∈ nodes, Storable n.key ∧ Storable n.data
  distinct : (nodes.map Node.id).Nodup

theorem treeOf_concat (nodes : List Node) (n : Node) :
    treeOf (nodes ++ [n]) = insertEntry (entryOf n) (treeOf nodes) := by
  simp [treeOf]

theorem ordered_treeOf (nodes : List Node) : Ordered (treeOf nodes) := by
  induction nodes using List.reverseRecOn with
  | nil => exact List.Pairwise.nil
  | append_singleton nodes n ih =>
    rw [treeOf_concat]
    exact ordered_insert ih

theorem lookup_treeOf_eq (nodes : List Node) (key : Str) : lookup key (treeOf nodes) =
    (nodes.find? fun n => n.key = key).map fun n => (entryOf n).2 := by
  induction nodes using List.reverseRecOn with
  | nil => rfl
  | append_singleton nodes n ih =>
    rw [treeOf_concat, insertEntry, lookup_insert (ordered_treeOf nodes), List.find?_append,
      Option.map_or]
    by_cases hkey : key = n.key
    · have hin : ([n].find? fun n => n.key = key) = some n := by simp [hkey]
      rw [entryOf, if_pos hkey, hin, ← ih, hkey]
      cases lookup n.key (treeOf nodes) <;> rfl
    · have hin : ([n].find? fun n => n.key = key) = none := by simp [Ne.symm hkey]
      rw [entryOf, if_neg hkey, hin, ih]
      simp

theorem lookup_treeOf (nodes : List Node) (key : Str) :
    (lookup key (treeOf nodes)).map Item.data = firstData nodes key := by
  rw [lookup_treeOf_eq, Option.map_map]
  rfl

/-- A key keeps its entry in later insertions. -/
theorem lookup_treeOf_append {nodes : List Node} {key : Str} {item : Item}
    (h : lookup key (treeOf nodes) = some item) (later : List Node) :
    lookup key (treeOf (nodes ++ later)) = some item := by
  induction later using List.reverseRecOn with
  | nil =>
    rw [List.append_nil]
    exact h
  | append_singleton later n ih =>
    rw [← List.append_assoc, treeOf_concat, insertEntry, lookup_insert (ordered_treeOf _)]
    by_cases hkey : key = (entryOf n).1
    · rw [if_pos hkey, ← hkey, ih]
      rfl
    · rw [if_neg hkey]
      exact ih

theorem mem_ids_treeOf {nodes : List Node} {i : ℤ} (h : i ∈ ids (treeOf nodes)) :
    i ∈ nodes.map Node.id := by
  induction nodes using List.reverseRecOn with
  | nil => cases h
  | append_singleton nodes n ih =>
    rw [treeOf_concat] at h
    rw [List.map_append, List.mem_append]
    rcases mem_ids_insertEntry h with rfl | h
    · exact Or.inr (List.mem_singleton.mpr rfl)
    · exact Or.inl (ih h)

theorem nodup_treeOf {nodes : List Node} (h : (nodes.map Node.id).Nodup) :
    (ids (treeOf nodes)).Nodup := by
  induction nodes using List.reverseRecOn with
  | nil => exact List.nodup_nil
  | append_singleton nodes n ih =>
    rw [List.map_append, List.nodup_append] at h
    rw [treeOf_concat]
    refine nodup_insertEntry (ih h.1) ?_
    intro hn
    exact h.2.2 _ (mem_ids_treeOf hn) _ (List.mem_singleton.mpr rfl) rfl

theorem numNodes_treeOf_le {nodes : List Node} (h : (nodes.map Node.id).Nodup) :
    (treeOf nodes).numNodes ≤ nodes.length := by
  have hsub : ids (treeOf nodes) ⊆ nodes.map Node.id := fun i hi => mem_ids_treeOf hi
  have hlen := ((nodup_treeOf h).subperm hsub).length_le
  rwa [ids, List.length_map, length_entries, List.length_map] at hlen

theorem height_treeOf {nodes : List Node} (h : (nodes.map Node.id).Nodup) :
    (treeOf nodes).height ≤ nodes.length :=
  (height_le_numNodes _).trans (numNodes_treeOf_le h)

variable {codec : Codec Node} {c c' : Client} {V V₀ : ℤ → Option Node} {done nodes : List Node}
  {fuel : ℕ}

/-- A session in which the nodes `done` have been inserted, in this one or before. The nodes
that are not cached are those of its start. -/
structure Open (codec : Codec Node) (V₀ : ℤ → Option Node) (done : List Node) (c : Client)
    (V : ℤ → Option Node) : Prop where
  shows' : Shows codec c V
  carries : Carries V (Cached c) (treeOf done)
  rootId : c.rootId = rootOf (treeOf done)
  support : ∀ i, V i ≠ none → i ∈ ids (treeOf done)
  untouched : ∀ i, ¬ Cached c i → V i = V₀ i

theorem Insertable.leaf (h : Insertable nodes) {n : Node} (hn : n ∈ nodes) :
    Leaf n ∧ Valid n.id n := by
  have hfresh := h.fresh n hn
  have hstorable := h.storable n hn
  have hrange := h.range n hn
  refine ⟨?_, rfl, hrange.1, hrange.2, hstorable.1, hstorable.2⟩
  rw [Leaf, hfresh]
  exact ⟨rfl, rfl, rfl, rfl, rfl, rfl, rfl⟩

theorem insertStep_returns {t : BinaryTree Entry} {n : Node} (hleaf : Leaf n) (hv : Valid n.id n)
    (hshows : Shows codec c V) (hcarries : Carries V (Cached c) t) (hroot : c.rootId = rootOf t)
    (hd : (ids t).Nodup) (hnew : n.id ∉ ids t) (hf : t.height < fuel) :
    Returns (do
      let res ← insertNode codec fuel n
      modify fun c => { c with rootId := res.id }) c fun _ c' => ∃ V', Shows codec c' V' ∧
        Carries V' (Cached c') (insertEntry (entryOf n) t) ∧
        c'.rootId = rootOf (insertEntry (entryOf n) t) ∧
        (∀ i, i ∉ ids (insertEntry (entryOf n) t) → V' i = V i) ∧
        ∀ i, ¬ Cached c' i → ¬ Cached c i ∧ V' i = V i := by
  have hinsert : Returns (insertNode codec fuel n) c fun r c' => ∃ V', Shows codec c' V' ∧
      Carries V' (Cached c') (insertEntry (entryOf n) t) ∧
      r.id = rootOf (insertEntry (entryOf n) t) ∧
      (∀ i, i ∉ ids (insertEntry (entryOf n) t) → V' i = V i) ∧
      ∀ i, ¬ Cached c' i → ¬ Cached c i ∧ V' i = V i := by
    apply returns_get.bind
    intro _ c₁ hget
    obtain ⟨rfl, rfl⟩ := hget
    rw [hroot]
    apply (insertPriv_returns hleaf hv hshows hcarries hd hnew hf).bind
    intro r c₂ hpost
    obtain ⟨⟨V₂, hev, _, hcarries₂⟩, hr⟩ := hpost
    have hchanged : ∀ i, i ∉ ids (insertEntry (entryOf n) t) → V₂ i = V i :=
      fun i hi => (hev.only i hi).1
    have huncached : ∀ i, ¬ Cached c₂ i → ¬ Cached c₁ i ∧ V₂ i = V i :=
      fun i hi => ⟨fun hc => hi (hev.keeps i hc), hev.uncached i hi⟩
    apply returns_modify.bind
    intro _ c₃ hmodify
    subst hmodify
    refine returns_pure ⟨V₂, ?_⟩
    split
    · exact ⟨hev.shows'.congr rfl rfl rfl, hcarries₂, hr.id, hchanged, huncached⟩
    · exact ⟨hev.shows', hcarries₂, hr.id, hchanged, huncached⟩
  apply hinsert.bind
  intro r c₁ hpost
  obtain ⟨V₁, hshows₁, hcarries₁, hr, hchanged, huncached⟩ := hpost
  apply returns_modify.imp
  intro _ c₂ hmodify
  subst hmodify
  exact ⟨V₁, hshows₁.congr rfl rfl rfl, hcarries₁, hr, hchanged, huncached⟩

theorem insertOne_returns (h : Open codec V₀ done c V) {n : Node}
    (hins : Insertable (done ++ [n])) (hf : done.length < fuel) :
    Returns (do
      let res ← insertNode codec fuel n
      modify fun c => { c with rootId := res.id }) c fun _ c' =>
        ∃ V', Open codec V₀ (done ++ [n]) c' V' := by
  have hin : n ∈ done ++ [n] := List.mem_append.mpr (Or.inr (List.mem_singleton.mpr rfl))
  obtain ⟨hleaf, hv⟩ := hins.leaf hin
  have hdistinct := hins.distinct
  rw [List.map_append, List.nodup_append] at hdistinct
  have hnew : n.id ∉ ids (treeOf done) := fun hn =>
    hdistinct.2.2 _ (mem_ids_treeOf hn) _ (List.mem_singleton.mpr rfl) rfl
  apply (insertStep_returns hleaf hv h.shows' h.carries h.rootId (nodup_treeOf hdistinct.1) hnew
    ((height_treeOf hdistinct.1).trans_lt hf)).imp
  intro _ c₁ hpost
  obtain ⟨V₁, hshows, hcarries, hroot, hchanged, huncached⟩ := hpost
  rw [← treeOf_concat] at hcarries hroot hchanged
  refine ⟨V₁, hshows, hcarries, hroot, ?_, ?_⟩
  · intro i hi
    by_contra hnot
    rw [hchanged i hnot] at hi
    rw [treeOf_concat] at hnot
    exact hnot (insertEntry_mem_ids (h.support i hi))
  · intro i hi
    obtain ⟨hc, hsame⟩ := huncached i hi
    exact hsame.trans (h.untouched i hc)

theorem Insertable.sub {l l' : List Node} (h : Insertable l) (hsub : l'.Sublist l) :
    Insertable l' :=
  ⟨fun n hn => h.fresh n (hsub.subset hn), fun n hn => h.range n (hsub.subset hn),
    fun n hn => h.storable n (hsub.subset hn), h.distinct.sublist (hsub.map _)⟩

theorem insertAll_returns (h : Open codec V₀ done c V) (hins : Insertable (done ++ nodes))
    (hf : (done ++ nodes).length ≤ fuel) :
    Returns (nodes.forM fun node => do
      let res ← insertNode codec fuel node
      modify fun c => { c with rootId := res.id }) c fun _ c' =>
        ∃ V', Open codec V₀ (done ++ nodes) c' V' := by
  refine (returns_forM (fun l u => ∃ pre V', pre ++ l = done ++ nodes ∧
    Open codec V₀ pre u V') ?_ ?_).imp ?_
  · intro n l u hpost
    obtain ⟨pre, V', hpre, hopen⟩ := hpost
    have hsplit : (pre ++ [n]) ++ l = done ++ nodes := by rw [← hpre]; simp
    have hlen : pre.length < fuel := by
      have hle := hf
      rw [← hsplit, List.length_append, List.length_append, List.length_singleton] at hle
      omega
    refine (insertOne_returns hopen (hins.sub (hsplit ▸ List.sublist_append_left _ _)) hlen).imp ?_
    intro _ u' hpost
    obtain ⟨V'', hopen'⟩ := hpost
    exact ⟨pre ++ [n], V'', hsplit, hopen'⟩
  · exact ⟨done, V, rfl, h⟩
  · intro _ u hpost
    obtain ⟨pre, V', hpre, hopen⟩ := hpost
    rw [List.append_nil] at hpre
    exact ⟨V', hpre ▸ hopen⟩

theorem findOne_returns (h : Open codec V₀ done c V) (hdone : Insertable done)
    (hf : done.length < fuel) (key : Str) :
    Returns (findPriv codec key fuel c.rootId) c fun r c' => Finds key (firstData done key) r ∧
      Open codec V₀ done c' V ∧ Counted c (visitedIds key (treeOf done)) c' := by
  rw [h.rootId, ← lookup_treeOf]
  refine (findPriv_returns h.shows' h.carries (nodup_treeOf hdone.distinct)
    ((height_treeOf hdone.distinct).trans_lt hf)).imp ?_
  intro r c' hpost
  obtain ⟨hr, hev, hc, hcount⟩ := hpost
  refine ⟨hr, ⟨hev.shows', hc, hev.rootId.trans h.rootId, h.support, ?_⟩, hcount⟩
  intro i hi
  exact h.untouched i fun hc => hi (hev.keeps i hc)

structure Idle (codec : Codec Node) (done : List Node) (c : Client) (V : ℤ → Option Node) :
    Prop where
  shows' : Shows codec c V
  carries : Carries V (Cached c) (treeOf done)
  rootId : c.rootId = rootOf (treeOf done)
  support : ∀ i, V i ≠ none → i ∈ ids (treeOf done)
  nothing_cached : c.cache.cacheItems = []
  readCount : c.readCount = 0
  writeCount : c.writeCount = 0

theorem Idle.not_cached (h : Idle codec done c V) (i : ℤ) : ¬ Cached c i := by
  simp [Cached, find?_eq_none, h.nothing_cached]

theorem odsStart_returns (h : Idle codec done c V) :
    Returns odsStart c fun _ c' => c' = { c with cache := c.cache.clear } ∧
      Idle codec done c' V ∧ Open codec V done c' V := by
  refine returns_modify.imp ?_
  intro _ _ hstep
  subst hstep
  have hfind : ∀ i, c.cache.clear.find? i = c.cache.find? i := by
    intro i
    simp [Cache.find?, Cache.clear, h.nothing_cached]
  have hcached : ∀ i, Cached { c with cache := c.cache.clear } i ↔ Cached c i := by
    intro i
    simp only [Cached, hfind]
  have hs : Shows codec { c with cache := c.cache.clear } V := h.shows'.clear h.nothing_cached
  have hc : Carries V (Cached { c with cache := c.cache.clear }) (treeOf done) :=
    carries_congr (fun i _ => ⟨rfl, hcached i⟩) h.carries
  exact ⟨rfl, ⟨hs, hc, h.rootId, h.support, rfl, h.readCount, h.writeCount⟩, hs, hc, h.rootId,
    h.support, fun _ _ => rfl⟩

theorem carries_settled {P : ℤ → Prop} {t : BinaryTree Entry} (tags : ℤ → ℤ)
    (hc : Carries V P t) (hP : ∀ i, ¬ Cached c' i) :
    Carries (settled tags c V) (Cached c') t := by
  induction t with
  | nil => trivial
  | node e l r hl hr =>
    obtain ⟨⟨n, hn, hdesc⟩, _, hcl, hcr⟩ := hc
    refine ⟨?_, fun i _ hi => absurd hi (hP i), hl hcl, hr hcr⟩
    by_cases hcached : Cached c e.2.id
    · refine ⟨clean (tagged tags n), ?_, ?_⟩
      · rw [settled, if_pos hcached, hn]
        rfl
      · obtain ⟨h₁, h₂, h₃, h₄, h₅, h₆, h₇⟩ := hdesc
        exact ⟨h₁, h₂, h₃, h₄, h₅, h₆, h₇⟩
    · refine ⟨n, ?_, hdesc⟩
      rw [settled, if_neg hcached, hn]

theorem finish_returns (h : Open codec V₀ done c V) (pad : ℤ) :
    Returns (odsFinalize codec pad) c fun _ c' => ∃ tags, Finalized codec pad c V tags c' ∧
      Idle codec done c' (settled tags c V) := by
  refine (odsFinalize_returns h.shows' pad).imp ?_
  intro _ c' hpost
  obtain ⟨tags, hfin⟩ := hpost
  have hnone : ∀ i, ¬ Cached c' i := by
    intro i
    simp [Cached, find?_eq_none, hfin.nothing_cached]
  have hsupport : ∀ i, settled tags c V i ≠ none → i ∈ ids (treeOf done) := by
    intro i hi
    apply h.support i
    intro hV
    apply hi
    simp [settled, hV]
  exact ⟨tags, hfin, hfin.shows', carries_settled tags h.carries hnone,
    hfin.rootId.trans h.rootId, hsupport, hfin.nothing_cached, hfin.readCount, hfin.writeCount⟩

theorem insertNodes_returns (h : Idle codec done c V) (hins : Insertable (done ++ nodes))
    (hf : (done ++ nodes).length ≤ fuel) (pad : ℤ → ℤ) :
    Returns (insertNodes codec fuel pad nodes) c fun _ c' =>
      ∃ V', Idle codec (done ++ nodes) c' V' := by
  refine (odsStart_returns h).bind ?_
  intro _ c₁ hpost
  obtain ⟨_, _, hopen⟩ := hpost
  refine (insertAll_returns hopen hins hf).bind ?_
  intro _ c₂ hpost
  obtain ⟨V₂, hopen₂⟩ := hpost
  refine returns_get.bind ?_
  intro _ c₂ hpost
  obtain ⟨rfl, rfl⟩ := hpost
  refine (finish_returns hopen₂ _).imp ?_
  intro _ c₃ hpost
  obtain ⟨tags, _, hidle⟩ := hpost
  exact ⟨_, hidle⟩

/-- A search reads the nodes on its path, which are written back; with its dummies it makes
two accesses more than three times as many as the path has nodes. -/
theorem find_returns (h : Idle codec done c V) (hdone : Insertable done)
    (hf : done.length < fuel) (pad : ℤ → ℤ) (key : Str) :
    Returns (OdictClient.find codec fuel pad key) c fun r c' =>
      Finds key (firstData done key) r ∧ (∃ V', Idle codec done c' V') ∧
      c'.controller.accesses =
        c.controller.accesses + (3 * (visited key (treeOf done)).length + 2) := by
  refine (odsStart_returns h).bind ?_
  intro _ c₁ hpost
  obtain ⟨hstart, hidle, hopen⟩ := hpost
  refine returns_get.bind ?_
  intro _ c₁ hpost
  obtain ⟨rfl, rfl⟩ := hpost
  refine (findOne_returns hopen hdone hf key).bind ?_
  intro r c₂ hpost
  obtain ⟨hr, hopen₂, hcount⟩ := hpost
  refine returns_get.bind ?_
  intro _ c₂ hpost
  obtain ⟨rfl, rfl⟩ := hpost
  refine (finish_returns hopen₂ _).bind ?_
  intro _ c₃ hpost
  obtain ⟨tags, hfin, hidle₃⟩ := hpost
  refine returns_pure ⟨hr, ⟨_, hidle₃⟩, ?_⟩
  have hmissing : ((visitedIds key (treeOf done)).filter fun i => ¬ Cached c₁ i).length =
      (visited key (treeOf done)).length := by
    rw [List.filter_eq_self.mpr (fun i _ => by simpa using hidle.not_cached i), visitedIds,
      List.length_map]
  have hreads := hcount.readCount
  have hwrites := hcount.writeCount
  have haccesses := hcount.accesses
  have hitems := hcount.items
  rw [hmissing] at haccesses hitems
  rw [hidle.readCount, visitedIds, List.length_map] at hreads
  rw [hidle.writeCount] at hwrites
  rw [hidle.nothing_cached, List.length_nil] at hitems
  have hcontroller : c₁.controller.accesses = c.controller.accesses := by rw [hstart]
  rw [hfin.accesses, hreads, hwrites, hitems, haccesses, hcontroller, dummyRounds, dummyRounds]
  omega

theorem runRequests_returns (insertPad findPad : ℤ → ℤ) {requests : List Request}
    (h : Idle codec done c V)
    (hins : Insertable (done ++ inserted requests))
    (hf : (done ++ inserted requests).length < fuel) :
    Returns (runRequests codec fuel insertPad findPad requests) c fun answers c' =>
      (∃ V', Idle codec (done ++ inserted requests) c' V') ∧
      answers.length = requests.length ∧ ∀ k key, requests[k]? = some (.find key) →
        ∃ answer, answers[k]? = some answer ∧
          Finds key (firstData (done ++ inserted (requests.take k)) key) answer := by
  induction requests generalizing c V done with
  | nil =>
    refine returns_pure ⟨⟨V, ?_⟩, rfl, by simp⟩
    simpa [inserted] using h
  | cons r requests ih =>
    have hsplit : done ++ inserted (r :: requests) = (done ++ r.nodes) ++ inserted requests := by
      simp [inserted]
    have htake : ∀ k, inserted ((r :: requests).take (k + 1)) =
        r.nodes ++ inserted (requests.take k) := by
      simp [inserted]
    rw [hsplit] at hins hf ⊢
    have hhead : Returns (r.run codec fuel insertPad findPad) c fun answer c' =>
        (∃ V', Idle codec (done ++ r.nodes) c' V') ∧
          ∀ key, r = .find key → Finds key (firstData done key) answer := by
      have hpre : (done ++ r.nodes).length < fuel := by
        rw [List.length_append] at hf
        omega
      have hinsPre := hins.sub (List.sublist_append_left _ _)
      cases r with
      | insert nodes =>
        refine (insertNodes_returns h hinsPre hpre.le insertPad).bind ?_
        rintro _ c₁ hidle
        exact returns_pure ⟨hidle, nofun⟩
      | find key =>
        rw [Request.nodes, List.append_nil] at hinsPre hpre ⊢
        refine (find_returns h hinsPre hpre findPad key).imp ?_
        intro answer c₁ hpost
        obtain ⟨hans, hidle, _⟩ := hpost
        refine ⟨hidle, ?_⟩
        intro _ hpost
        obtain ⟨⟩ := hpost
        exact hans
    refine hhead.bind ?_
    intro answer c₁ hpost
    obtain ⟨⟨V₁, hidle⟩, hans⟩ := hpost
    refine (ih hidle hins hf).bind ?_
    intro answers c₂ hpost
    obtain ⟨hidle₂, hlen, hget⟩ := hpost
    refine returns_pure ⟨hidle₂, by simp [hlen], ?_⟩
    intro k key hk
    cases k with
    | zero =>
      rcases Option.some.inj hk with rfl
      refine ⟨answer, rfl, ?_⟩
      simpa [inserted] using hans key rfl
    | succ k =>
      rw [htake, ← List.append_assoc]
      exact hget k key hk

section Serve

variable {bucketSize blockNumber : ℕ} {storage : Storage} {randGen : RandomForOram} {o : Oram}

theorem fresh_idle (hs : ∀ k, storage.fails k = false)
    (hbuild : construct.run (blank bucketSize blockNumber storage randGen) = .ok ⟨⟩ o)
    (order : HashOrder) {secretKey : Str} (hkey : 16 ≤ secretKey.length) :
    Returns (initDummyData codec) (Client.fresh secretKey order o) fun _ c =>
      (∃ V, Idle codec [] c V) ∧ c.nodeCount = 1 := by
  have hserves := serves_construct hs hbuild
  have hw : WellFormed (Client.fresh secretKey order o).cache :=
    ⟨rfl, List.nodup_nil, fun _ he => absurd he List.not_mem_nil,
      fun _ he => absurd he List.not_mem_nil⟩
  have hshows : Shows codec (Client.fresh secretKey order o) fun _ => none :=
    ⟨⟨_, hserves, fun _ _ _ => rfl⟩, hw, fun i _ hn => absurd hn (Option.not_mem_none _), hkey,
      fun _ _ hn => absurd hn (Option.not_mem_none _)⟩
  refine (dummyWrite_returns hshows).imp ?_
  intro _ _ hpost
  obtain ⟨hs', k, _, rfl⟩ := hpost
  exact ⟨⟨_, hs', trivial, rfl, fun _ hi => absurd rfl hi, rfl, rfl, rfl⟩, rfl⟩

theorem serve_returns (codec : Codec Node) (insertPad findPad : ℤ → ℤ)
    (hs : ∀ k, storage.fails k = false)
    (hbuild : construct.run (blank bucketSize blockNumber storage randGen) = .ok ⟨⟩ o)
    (order : HashOrder) {secretKey : Str} (hkey : 16 ≤ secretKey.length) {requests : List Request}
    (hins : Insertable (inserted requests)) (hf : (inserted requests).length < fuel) :
    Returns (serve codec fuel insertPad findPad requests) (Client.fresh secretKey order o)
      fun answers c => (∃ V, Idle codec (inserted requests) c V) ∧
        answers.length = requests.length ∧ ∀ k key, requests[k]? = some (.find key) →
          ∃ answer, answers[k]? = some answer ∧
            Finds key (firstData (inserted (requests.take k)) key) answer := by
  refine (fresh_idle hs hbuild order hkey).bind ?_
  intro _ c hpost
  obtain ⟨⟨V, hidle⟩, _⟩ := hpost
  exact runRequests_returns insertPad findPad hidle hins hf

/-- Every search is answered with the data of the first node inserted with its key, and with
no node if there is none. -/
theorem dictionary_finds_first_insert (codec : Codec Node) (insertPad findPad : ℤ → ℤ)
    (hs : ∀ k, storage.fails k = false)
    (hbuild : construct.run (blank bucketSize blockNumber storage randGen) = .ok ⟨⟩ o)
    (order : HashOrder) {secretKey : Str} (hkey : 16 ≤ secretKey.length) {requests : List Request}
    (hins : Insertable (inserted requests)) (hf : (inserted requests).length < fuel) :
    ∃ answers c, (serve codec fuel insertPad findPad requests).run
        (Client.fresh secretKey order o) = .ok answers c ∧
      answers.length = requests.length ∧ ∀ k key, requests[k]? = some (.find key) →
        ∃ answer, answers[k]? = some answer ∧
          Finds key (firstData (inserted (requests.take k)) key) answer := by
  obtain ⟨answers, c, hrun, _, hlen, hget⟩ :=
    serve_returns codec insertPad findPad hs hbuild order hkey hins hf
  exact ⟨answers, c, hrun, hlen, hget⟩

def sampleKey : Str := List.replicate 16 7

theorem sampleKey_length : 16 ≤ sampleKey.length := by decide

theorem dictionary_finds_first_insert_again :
    ∃ (o : Oram) (answers : List (Option Node)) (c : Client),
      construct.run (blank 1 2 .new ⟨0, fun k => k, 0⟩) = .ok ⟨⟩ o ∧
      (serve ObjectArchive.nodeCodec 4 id id
        [.insert [.fresh 1 [98] [1], .fresh 2 [97] [2], .fresh 3 [98] [3]], .find [98],
          .find [99]]).run (Client.fresh sampleKey .newestFirst o) = .ok answers c ∧
      (∃ n : Node, answers[1]? = some (some n) ∧ n.data = [1]) ∧ answers[2]? = some none := by
  obtain ⟨o, hbuild⟩ := construct_small
  have hins : Insertable (inserted [.insert [.fresh 1 [98] [1], .fresh 2 [97] [2],
      .fresh 3 [98] [3]], .find [98], .find [99]]) :=
    ⟨by decide, by decide, by simp [inserted, Request.nodes, Node.fresh, Storable, blockBytes],
      by decide⟩
  have hf : (inserted [.insert [.fresh 1 [98] [1], .fresh 2 [97] [2], .fresh 3 [98] [3]],
      .find [98], .find [99]]).length < 4 := by decide
  obtain ⟨answers, c, hrun, _, hget⟩ := dictionary_finds_first_insert ObjectArchive.nodeCodec
    id id (fun _ => rfl) hbuild .newestFirst sampleKey_length hins hf
  refine ⟨o, answers, c, hbuild, hrun, ?_, ?_⟩
  · obtain ⟨_, hanswer, n, rfl, _, hdata⟩ := hget 1 [98] rfl
    exact ⟨n, hanswer, hdata⟩
  · obtain ⟨_, hanswer, rfl⟩ := hget 2 [99] rfl
    exact hanswer

/-- The accesses of a search depend on nothing but the number of nodes on its path: two
searches in the same state make equally many only if their paths are equally long. -/
theorem find_accesses_iff (codec : Codec Node) (insertPad findPad : ℤ → ℤ)
    (hs : ∀ k, storage.fails k = false)
    (hbuild : construct.run (blank bucketSize blockNumber storage randGen) = .ok ⟨⟩ o)
    (order : HashOrder) {secretKey : Str} (hkey : 16 ≤ secretKey.length) {requests : List Request}
    (hins : Insertable (inserted requests)) (hf : (inserted requests).length < fuel)
    (k₁ k₂ : Str) :
    ∃ answers c, (serve codec fuel insertPad findPad requests).run
        (Client.fresh secretKey order o) = .ok answers c ∧
      ∃ r₁ c₁ r₂ c₂, (OdictClient.find codec fuel findPad k₁).run c = .ok r₁ c₁ ∧
        (OdictClient.find codec fuel findPad k₂).run c = .ok r₂ c₂ ∧
        (c₁.controller.accesses = c₂.controller.accesses ↔
          (visited k₁ (treeOf (inserted requests))).length =
            (visited k₂ (treeOf (inserted requests))).length) := by
  obtain ⟨answers, c, hrun, ⟨V, hidle⟩, _⟩ :=
    serve_returns codec insertPad findPad hs hbuild order hkey hins hf
  obtain ⟨r₁, c₁, hrun₁, _, _, hcount₁⟩ := find_returns hidle hins hf findPad k₁
  obtain ⟨r₂, c₂, hrun₂, _, _, hcount₂⟩ := find_returns hidle hins hf findPad k₂
  refine ⟨answers, c, hrun, r₁, c₁, r₂, c₂, hrun₁, hrun₂, ?_⟩
  rw [hcount₁, hcount₂]
  omega

def threeNodes : List Node := [.fresh 1 [98] [1], .fresh 2 [97] [2], .fresh 3 [99] [3]]

theorem threeNodes_insertable : Insertable (inserted [.insert threeNodes]) :=
  ⟨by decide, by decide, by simp [inserted, Request.nodes, threeNodes, Node.fresh, Storable,
    blockBytes], by decide⟩

theorem threeNodes_length : (inserted [.insert threeNodes]).length < 4 := by decide

theorem treeOf_threeNodes : treeOf (inserted [.insert threeNodes]) =
    .node ([98], ⟨1, [1]⟩) (.node ([97], ⟨2, [2]⟩) .nil .nil)
      (.node ([99], ⟨3, [3]⟩) .nil .nil) := rfl

theorem find_accesses_iff_leaves :
    ∃ (o : Oram) (answers : List (Option Node)) (c : Client),
      construct.run (blank 1 2 .new ⟨0, fun k => k, 0⟩) = .ok ⟨⟩ o ∧
      (serve ObjectArchive.nodeCodec 4 id id [.insert threeNodes]).run
        (Client.fresh sampleKey .newestFirst o) = .ok answers c ∧
      ∃ r₁ c₁ r₂ c₂, (OdictClient.find ObjectArchive.nodeCodec 4 id [97]).run c = .ok r₁ c₁ ∧
        (OdictClient.find ObjectArchive.nodeCodec 4 id [99]).run c = .ok r₂ c₂ ∧
        c₁.controller.accesses = c₂.controller.accesses := by
  obtain ⟨o, hbuild⟩ := construct_small
  obtain ⟨answers, c, hrun, r₁, c₁, r₂, c₂, hrun₁, hrun₂, hiff⟩ :=
    find_accesses_iff ObjectArchive.nodeCodec id id (fun _ => rfl) hbuild .newestFirst
      sampleKey_length threeNodes_insertable threeNodes_length [97] [99]
  have hpaths : (visited [97] (treeOf (inserted [.insert threeNodes]))).length =
      (visited [99] (treeOf (inserted [.insert threeNodes]))).length := by
    rw [treeOf_threeNodes]
    rfl
  exact ⟨o, answers, c, hbuild, hrun, r₁, c₁, r₂, c₂, hrun₁, hrun₂, hiff.mpr hpaths⟩

/-- The search for the key of the root makes 5 accesses, that for the key of a leaf 8. -/
theorem root_and_leaf_accesses :
    ∃ (o : Oram) (answers : List (Option Node)) (c : Client),
      construct.run (blank 1 2 .new ⟨0, fun k => k, 0⟩) = .ok ⟨⟩ o ∧
      (serve ObjectArchive.nodeCodec 4 id id [.insert threeNodes]).run
        (Client.fresh sampleKey .newestFirst o) = .ok answers c ∧
      ∃ r₁ c₁ r₂ c₂, (OdictClient.find ObjectArchive.nodeCodec 4 id [98]).run c = .ok r₁ c₁ ∧
        (OdictClient.find ObjectArchive.nodeCodec 4 id [97]).run c = .ok r₂ c₂ ∧
        c₁.controller.accesses = c.controller.accesses + 5 ∧
        c₂.controller.accesses = c.controller.accesses + 8 := by
  obtain ⟨o, hbuild⟩ := construct_small
  obtain ⟨answers, c, hrun, ⟨V, hidle⟩, _⟩ := serve_returns ObjectArchive.nodeCodec id id
    (fun _ => rfl) hbuild .newestFirst sampleKey_length threeNodes_insertable threeNodes_length
  obtain ⟨r₁, c₁, hrun₁, _, _, hcount₁⟩ :=
    find_returns hidle threeNodes_insertable threeNodes_length id [98]
  obtain ⟨r₂, c₂, hrun₂, _, _, hcount₂⟩ :=
    find_returns hidle threeNodes_insertable threeNodes_length id [97]
  have hroot : (visited [98] (treeOf (inserted [.insert threeNodes]))).length = 1 := by
    rw [treeOf_threeNodes]
    rfl
  have hleaf : (visited [97] (treeOf (inserted [.insert threeNodes]))).length = 2 := by
    rw [treeOf_threeNodes]
    rfl
  rw [hroot] at hcount₁
  rw [hleaf] at hcount₂
  exact ⟨o, answers, c, hbuild, hrun, r₁, c₁, r₂, c₂, hrun₁, hrun₂, hcount₁, hcount₂⟩

end Serve

end Dictionary
