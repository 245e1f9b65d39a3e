import SseSeal.IndexAddresses
import SseSeal.RangeSearch
import Mathlib.Logic.Relation

/-! The addresses of a loaded table. Every oblivious memory is made for the same number of blocks,
whatever the table is; the accesses stay below it if and only if the arrays of the padded memory
and the nodes of its keywords are few enough. -/
namespace TableAddresses

open Bytes Objects ObjectArchive StateExcept StringCipher SortedMap OramReadPathEviction OramMemory
open OramCalls OramAccessController OdictClient ClientTree Dictionary Padding PaddedMemory SubArrays
open SubOrams KeywordIndex RangeIndex TableLoading RangeSearch AddressTrace SessionAddresses
open SubOramAddresses IndexAddresses

variable {l : Loader} {e : Entropy} {t : Table} {s s' : SealClient} {p : Setup}
  {codec : Codec Node} {n N : ℕ} {r r' : Ranges} {mapKey : Str} {tmp : Memory}
  {findPad : ℤ → ℤ}

theorem slotAddresses_mono {m : ℕ} (h : m ≤ n) : slotAddresses p m ⊆ slotAddresses p n := by
  intro a ha
  have hbase : baseOf p.log m ≤ baseOf p.log n := baseOf_mono p.log h
  have hpow : 2 ^ (baseOf p.log m - p.alpha) ≤ 2 ^ (baseOf p.log n - p.alpha) :=
    Nat.pow_le_pow_right (by decide) (by omega)
  refine ⟨ha.1, ha.2.trans_le ?_⟩
  exact_mod_cast hpow

/-- Ranges of columns with `n` rows, whose sub-ORAMs used the addresses of their slots only. -/
structure RangeUses (codec : Codec Node) (p : Setup) (n : ℕ) (r : Ranges) : Prop where
  uses : ∀ mapKey, AllUse codec p mapKey (slotAddresses p n) (controllersOf mapKey r)
  size : ∀ mapKey m, r.kwdSize.find? mapKey = some m → m = n

theorem RangeUses.setControllers (h : RangeUses codec p n r) {ks : List Controller}
    (hks : AllUse codec p mapKey (slotAddresses p n) ks) :
    RangeUses codec p n (setControllers mapKey ks r) := by
  refine ⟨?_, h.size⟩
  intro other
  by_cases hother : other = mapKey
  · rwa [hother, controllersOf_setControllers]
  · have hsame : controllersOf other (RangeIndex.setControllers mapKey ks r) =
        controllersOf other r := by
      rw [controllersOf, RangeIndex.setControllers, Dict.find?_alter_of_ne hother]
      rfl
    rw [hsame]
    exact h.uses other

theorem loadColumn_uses (h : RangeUses codec p n r) (hnone : controllersOf mapKey r = [])
    (hlen : tmp.length = n) (halpha : p.alpha ≤ baseOf p.log n) (sort : KeySort) :
    Ends (loadColumn p sort tmp mapKey) r (fun _ r' => RangeUses codec p n r' ∧
      ∀ other ≠ mapKey, controllersOf other r' = controllersOf other r) fun _ _ => True := by
  have hdocs : ((sort.sort tmp).map Prod.snd).length = n := by
    rw [List.length_map, (sort.perm _).length_eq, hlen]
  apply returns_modify.ends.bind
  intro _ r₁ hroot
  apply returns_modify.ends.bind
  intro _ r₂ hsize
  have hcontrollers : ∀ other, controllersOf other r₂ = controllersOf other r := by
    intro other
    rw [hsize, hroot]
    rfl
  have hr₂ : RangeUses codec p n r₂ := by
    refine ⟨fun other => (hcontrollers other).symm ▸ h.uses other, ?_⟩
    intro other m hm
    rw [hsize, hroot] at hm
    by_cases hother : other = mapKey
    · subst hother
      rw [Dict.find?_alter_self, Option.some.injEq] at hm
      rw [← hm, hdocs]
    · rw [Dict.find?_alter_of_ne hother] at hm
      exact h.size other m hm
  have hinit : Ends (adjOramInit p mapKey ((sort.sort tmp).map Prod.snd)) (controllersOf mapKey r₂)
      (fun _ => AllUse codec p mapKey (slotAddresses p ((sort.sort tmp).map Prod.snd).length))
      fun _ => AllUse codec p mapKey (slotAddresses p ((sort.sort tmp).map Prod.snd).length) :=
    adjOramInit_uses (by rwa [hdocs]) ((hcontrollers mapKey).trans hnone)
  rw [hdocs] at hinit
  apply (hinit.focus (controllersOf mapKey) (RangeIndex.setControllers mapKey)
    IndexError.subOram).imp
  · intro _ r₃ hpost
    obtain ⟨ks, hks, rfl⟩ := hpost
    refine ⟨RangeUses.setControllers hr₂ hks, ?_⟩
    intro other hother
    rw [← hcontrollers other, controllersOf, RangeIndex.setControllers,
      Dict.find?_alter_of_ne hother]
    rfl
  · exact fun _ _ _ => trivial

theorem loadColumns_uses (ht : t.WellFormed) {columns : List (Str × ℕ)}
    (hin : ∀ column ∈ columns, column.2 < t.columnNames.length)
    (hd : (columns.map Prod.fst).Nodup) (halpha : l.setup.alpha ≤ baseOf l.setup.log t.rows.length)
    (h : RangeUses codec l.setup t.rows.length r)
    (hnone : ∀ column ∈ columns, controllersOf (t.filePath ++ column.1) r = []) :
    Ends (loadColumns l t columns) r (fun _ => RangeUses codec l.setup t.rows.length)
      fun _ _ => True := by
  induction columns generalizing r with
  | nil => exact ends_ok rfl h
  | cons column columns ih =>
    obtain ⟨name, i⟩ := column
    rw [List.map_cons, List.nodup_cons] at hd
    obtain ⟨hcolumn, hlen⟩ := ht.getColumn (hin _ List.mem_cons_self)
    apply (orThrow_returns hcolumn).ends.bind
    intro _ r₀ hpost
    obtain ⟨rfl, rfl⟩ := hpost
    have hload := loadColumn_uses h (hnone _ List.mem_cons_self) (columnEntries_length hlen name)
      halpha l.sort
    apply hload.bind
    intro _ r₁ hpost
    obtain ⟨h₁, hother⟩ := hpost
    have hrest := ih (fun column hcol => hin column (List.mem_cons_of_mem _ hcol)) hd.2 h₁ ?_
    · apply hrest.bind
      intro memory r₂ h₂
      exact ends_ok rfl h₂
    · intro column hcol
      have hname : t.filePath ++ column.1 ≠ t.filePath ++ name := by
        intro heq
        have hmem := List.mem_map_of_mem (f := Prod.fst) hcol
        exact hd.1 (List.append_cancel_left heq ▸ hmem)
      rw [hother _ hname]
      exact hnone column (List.mem_cons_of_mem _ hcol)

theorem searchRangeHelper_uses (positions : List ℕ) : Stable (RangeUses codec p n)
    (RangeUses codec p n) (searchRangeHelper p mapKey positions) := by
  induction positions with
  | nil => exact stable_pure _
  | cons i positions ih =>
    apply stable_get_bind
    intro r hr
    have hsize : (r.kwdSize.find? mapKey).getD 0 ≤ n := by
      cases hm : r.kwdSize.find? mapKey with
      | none => exact Nat.zero_le n
      | some m => exact (hr.size mapKey m hm).le
    have hread : Stable (AllUse codec p mapKey (slotAddresses p n))
        (AllUse codec p mapKey (slotAddresses p n))
        (readSubscript p ((r.kwdSize.find? mapKey).getD 0) i) :=
      readSubscript_uses (slotAddresses_mono hsize)
    have hcolumn : Stable (RangeUses codec p n) (RangeUses codec p n)
        (onControllers mapKey (readSubscript p ((r.kwdSize.find? mapKey).getD 0) i)) :=
      hread.focus (controllersOf mapKey) (RangeIndex.setControllers mapKey) IndexError.subOram
        (fun _ h => h.uses mapKey) (fun _ _ h hks => RangeUses.setControllers h hks)
        fun _ _ h hks => RangeUses.setControllers h hks
    apply hcolumn.bind
    intro doc
    exact ih.bind fun _ => stable_pure _

theorem searchRange_uses (mapKey lower upper : Str) : Stable (RangeUses codec p n)
    (RangeUses codec p n) (searchRange p mapKey lower upper) := by
  have hstoi : ∀ text, Stable (RangeUses codec p n) (RangeUses codec p n) (stoi text) := by
    intro text
    apply (stable_orThrow (fun _ h => h) _ _).bind
    intro m
    split
    · exact stable_pure _
    · exact stable_throw (fun _ h => h) _
  apply (hstoi _).bind
  intro lowerBound
  apply (hstoi _).bind
  intro upperBound
  apply stable_get.bind
  intro r
  apply (stable_orThrow (fun _ h => h) _ _).bind
  intro root
  apply (stable_orThrow (fun _ h => h) _ _).bind
  intro singleNode
  exact searchRangeHelper_uses _

theorem initDummyData_uses {c c' : Client} {a : PUnit}
    (h : (initDummyData codec).run c = .ok a c') : Uses codec {0} c.controller c'.controller := by
  obtain ⟨answer, c₁, hwrite, h⟩ := bind_ok h
  cases h
  obtain ⟨k, hrun, rfl⟩ := onController_ok hwrite
  exact (Uses.refl codec _ _).tail (.access .write 0 _ rfl (Or.inl ⟨_, hrun⟩))

theorem Loads.uses (h : Loads l e t s) :
    ∃ padded, adjPadding l.setup.log l.x l.setup.secretKey t.memory (countTable t.memory) e =
        some padded ∧
      (l.sort.sort padded.1.memory).length = l.x * keywordSizes l.setup.log l.x t.memory + 1 ∧
      IndexUses l.setup l.codec l.fuel t.filePath (l.newDictionary t.filePath)
        (l.sort.sort padded.1.memory) padded.2 s.index ∧
      (∃ arrays, subArrays l.setup ((l.sort.sort padded.1.memory).map Prod.snd) = some arrays ∧
        List.Forall₂ (Keeps l.setup) s.index.adjOramAccessControllers arrays) ∧
      RangeUses l.codec l.setup t.rows.length s.ranges := by
  obtain ⟨_, _, _, _, o, hs, hbuild, hdict⟩ := h.dictionary
  obtain ⟨k, hrun⟩ := h.run
  have hi := h.indexable
  have hmemory := h.loadable.memory_ne_nil hi
  obtain ⟨padded, c, V, hpadded, hsorted, hlen, hdummy, hidle, hstart, hload⟩ :=
    load_run l.codec l.insertPad l.sort e hi.x hi.size hs hbuild l.order h.loadable.key l.fuel
      t.filePath
  have hrepeat : ¬ (keys (l.sort.sort padded.1.memory)).Nodup := by
    have hperm : (keys (l.sort.sort padded.1.memory)).Perm (keys padded.1.memory) :=
      (l.sort.perm _).map Prod.fst
    rw [hperm.nodup_iff]
    exact adjPadding_repeats hi.x hpadded hmemory
  have huses : Uses l.codec {0} ⟨o, 0⟩ c.controller := initDummyData_uses hdummy
  obtain ⟨⟨⟩, i, hinsert, hindex, harrays⟩ := adjInsert_uses (s := ⟨c, [], _⟩) hsorted l.insertPad
    hidle hstart h.loadable.key rfl (h.loadable.controllers t.filePath)
    (by rw [hlen]; exact h.loadable.alpha_le hi) (by rw [hlen]; exact hi.size)
    (h.loadable.storable_memory hi) (by rw [hlen]; exact hi.fuel) rfl hrepeat huses
  obtain ⟨r', hcolumns, hadj, _⟩ := adjDataIn_run h.loadable k hdict (hload.trans hinsert)
  cases hrun.symm.trans hadj
  have hempty : RangeUses l.codec l.setup t.rows.length (SealClient.fresh l k).ranges :=
    ⟨fun _ i k hk => (by cases hk), fun _ m hm => by cases hm⟩
  have hd : (t.columnNames.zipIdx.map Prod.fst).Nodup := by
    rw [List.zipIdx_map_fst]
    exact h.loadable.table.distinct
  have hranges := (loadColumns_uses h.loadable.table (fun column hc => zipIdx_index hc) hd
    h.loadable.alpha hempty fun _ _ => rfl).post_of_ok hcolumns
  rw [hdict]
  exact ⟨padded, hpadded, hlen, hindex, harrays, hranges⟩

inductive Query where
  | keyword (w : Str)
  | range (mapKey lower upper : Str)

def Query.run (l : Loader) (findPad : ℤ → ℤ) : Query → SealM PUnit
  | keyword w => onIndex do
    let _ ← search l.setup l.codec l.fuel findPad w
  | range mapKey lower upper => onRanges do
    let _ ← searchRange l.setup mapKey lower upper

/-- The client is left by any queries, each of which returned or threw. -/
def Queried (l : Loader) (findPad : ℤ → ℤ) : SealClient → SealClient → Prop :=
  Relation.ReflTransGen fun s s' => ∃ q : Query, Leads (q.run l findPad) s s'

/-- Each oblivious memory was accessed only at addresses that it was constructed for. -/
structure Fits (l : Loader) (t : Table) (s : SealClient) : Prop where
  dictionary : Uses l.codec (addressesOf (l.newDictionary t.filePath))
    (l.newDictionary t.filePath) s.index.client.controller
  keyword : ∀ (i : ℕ) k, s.index.adjOramAccessControllers[i]? = some k →
    Uses l.codec (addressesOf (l.setup.newController t.filePath i))
      (l.setup.newController t.filePath i) k
  range : ∀ mapKey (i : ℕ) k, (controllersOf mapKey s.ranges)[i]? = some k →
    Uses l.codec (addressesOf (l.setup.newController mapKey i))
      (l.setup.newController mapKey i) k

/-- All oblivious memories are made with the `block_number` of the client. -/
structure BlockNumber (l : Loader) (t : Table) (N : ℕ) : Prop where
  dictionary : (l.newDictionary t.filePath).oram.numBlocks = N
  controllers : ∀ mapKey i, (l.setup.newController mapKey i).oram.numBlocks = N

/-- The arrays of the sorted memory have at most `N` slots, and one more than the subscript at
which any keyword occurs first is below `N`. -/
def Roomy (l : Loader) (e : Entropy) (t : Table) (N : ℕ) : Prop :=
  ∃ padded, adjPadding l.setup.log l.x l.setup.secretKey t.memory (countTable t.memory) e =
      some padded ∧
    2 ^ (baseOf l.setup.log (l.sort.sort padded.1.memory).length - l.setup.alpha) ≤ N ∧
    ∀ w ∈ keys (l.sort.sort padded.1.memory),
      (keys (l.sort.sort padded.1.memory)).idxOf w + 1 < N

structure Tracked (l : Loader) (t : Table) (sorted : Memory) (count : Dict Str ℕ) (s : SealClient) :
    Prop where
  index : IndexUses l.setup l.codec l.fuel t.filePath (l.newDictionary t.filePath) sorted count
    s.index
  ranges : RangeUses l.codec l.setup t.rows.length s.ranges

variable {sorted : Memory} {count : Dict Str ℕ}

theorem Query.tracked (q : Query) : Stable (Tracked l t sorted count) (Tracked l t sorted count)
    (q.run l findPad) := by
  cases q with
  | keyword w =>
    have hsearch : Stable (IndexUses l.setup l.codec l.fuel t.filePath
        (l.newDictionary t.filePath) sorted count) (IndexUses l.setup l.codec l.fuel t.filePath
        (l.newDictionary t.filePath) sorted count) (do
          let _ ← search l.setup l.codec l.fuel findPad w) :=
      (search_uses findPad w).bind fun _ => stable_pure _
    exact hsearch.focus SealClient.index (fun i s => { s with index := i }) id (fun _ h => h.index)
      (fun _ _ h hindex => ⟨hindex, h.ranges⟩) fun _ _ h hindex => ⟨hindex, h.ranges⟩
  | range mapKey lower upper =>
    have hsearch : Stable (RangeUses l.codec l.setup t.rows.length)
        (RangeUses l.codec l.setup t.rows.length) (do
          let _ ← searchRange l.setup mapKey lower upper) :=
      (searchRange_uses mapKey lower upper).bind fun _ => stable_pure _
    exact hsearch.focus SealClient.ranges (fun r s => { s with ranges := r }) id
      (fun _ h => h.ranges) (fun _ _ h hranges => ⟨h.index, hranges⟩)
      fun _ _ h hranges => ⟨h.index, hranges⟩

theorem Queried.tracked (hq : Queried l findPad s s') (h : Tracked l t sorted count s) :
    Tracked l t sorted count s' := by
  induction hq with
  | refl => exact h
  | tail _ hstep ih =>
    obtain ⟨q, hleads⟩ := hstep
    exact (Query.tracked q).of_leads hleads ih

theorem slotAddresses_subset {k : Controller} (hN : k.oram.numBlocks = N)
    (hsize : 2 ^ (baseOf p.log n - p.alpha) ≤ N) : slotAddresses p n ⊆ addressesOf k := by
  intro a ha
  refine ⟨ha.1, ha.2.trans_le ?_⟩
  rw [hN]
  exact_mod_cast hsize

/-- With enough room, every access is at an address that the memory was constructed for. -/
theorem Tracked.fits (h : Tracked l t sorted count s) (hN : BlockNumber l t N)
    (hrows : t.rows.length ≤ sorted.length)
    (hslots : 2 ^ (baseOf l.setup.log sorted.length - l.setup.alpha) ≤ N)
    (hids : ∀ w ∈ keys sorted, (keys sorted).idxOf w + 1 < N) : Fits l t s := by
  obtain ⟨nodes, V, _, _, _, hindexes, _, huses⟩ := h.index.client
  constructor
  · apply huses.mono
    intro i hi
    rw [addressesOf, hN.dictionary]
    rcases hi with rfl | hi
    · have hpos := Nat.two_pow_pos (baseOf l.setup.log sorted.length - l.setup.alpha)
      exact ⟨le_refl 0, by omega⟩
    · obtain ⟨w, hw, rfl⟩ := (Indexes.mem_ids hindexes).mp hi
      have hlt := hids w hw
      exact ⟨by omega, by omega⟩
  · intro i k hk
    exact (h.index.subOrams i k hk).mono (slotAddresses_subset (hN.controllers _ _) hslots)
  · intro mapKey i k hk
    apply (h.ranges.uses mapKey i k hk).mono
    exact (slotAddresses_mono hrows).trans (slotAddresses_subset (hN.controllers _ _) hslots)

theorem numBlocks_le {bucketSize blockNumber : ℕ} {storage : Storage} {randGen : RandomForOram}
    {o : Oram} (h : construct.run (blank bucketSize blockNumber storage randGen) = .ok ⟨⟩ o) :
    o.numBlocks ≤ 2 ^ 30 := by
  have hblocks : o.numBlocks = blockNumber := by rw [construct_ok h]; rfl
  obtain ⟨_, _, hget, h⟩ := bind_ok h
  cases hget
  split at h
  · cases h
  · rename_i hlevels
    rw [not_or] at hlevels
    have hclog : Nat.clog 2 blockNumber + 1 ≤ 31 := not_lt.mp hlevels.2
    rw [hblocks]
    exact (Nat.clog_le_iff_le_pow (by decide)).mp (by omega)

theorem Loads.roomy (h : Loads l e t s) (hN : BlockNumber l t N) (hfits : Fits l t s) :
    Roomy l e t N := by
  obtain ⟨padded, hpadded, hlen, hindex, ⟨arrays, harrays, hkeeps⟩, _⟩ := Loads.uses h
  obtain ⟨nodes, V, hidle, _, _, hindexes, _, _⟩ := hindex.client
  obtain ⟨_, _, _, _, o, hs, hbuild, hdict⟩ := h.dictionary
  have hblocks : N ≤ 2 ^ 30 := by
    have hdictionary := hN.dictionary
    rw [hdict] at hdictionary
    exact hdictionary ▸ numBlocks_le hbuild
  have hrange : ∀ k : Controller, k.oram.numBlocks = N →
      ∀ a ∈ addressesOf k, 0 ≤ a ∧ a < 2 ^ 31 := by
    intro k hk a ha
    rw [addressesOf, hk] at ha
    exact ⟨ha.1, by have := ha.2; omega⟩
  refine ⟨padded, hpadded, ?_, ?_⟩
  · have hdocs : ((l.sort.sort padded.1.memory).map Prod.snd).length =
        (l.sort.sort padded.1.memory).length := List.length_map _
    have halpha : l.setup.alpha ≤ baseOf l.setup.log (l.sort.sort padded.1.memory).length := by
      rw [hlen]
      exact h.loadable.alpha_le h.indexable
    obtain ⟨hcount, hsize⟩ := subArrays_shape harrays
    rw [hdocs, two_pow_sub_le_arraySize halpha] at hsize
    have hpos := Nat.two_pow_pos l.setup.alpha
    have hfirst : 0 < arrays.length := by omega
    have harray := List.getElem?_eq_getElem hfirst
    have hlast := hsize _ (List.getElem_mem hfirst)
    obtain ⟨k, hk, m, hserves, hm⟩ := forall₂_getElem? hkeeps harray
    have hslots := Nat.two_pow_pos
      (baseOf l.setup.log (l.sort.sort padded.1.memory).length - l.setup.alpha)
    obtain ⟨data, hdata, _⟩ := hm (arrays[0].length - 1) _
      (List.getElem?_eq_getElem (by omega))
    have hmem := (hfits.keyword 0 k hk).held (hrange _ (hN.controllers _ _))
      (h.loadable.controllers t.filePath 0) hserves (by rw [hdata]; exact Option.some_ne_none _)
    rw [addressesOf, hN.controllers] at hmem
    have hlt := hmem.2
    omega
  · intro w hw
    have hi : ((keys (l.sort.sort padded.1.memory)).idxOf w + 1 : ℤ) ∈ ids (treeOf nodes) :=
      (Indexes.mem_ids hindexes).mpr ⟨w, hw, rfl⟩
    obtain ⟨m, hserves, hm⟩ := Idle.held hidle hi
    have hstart : Serves (l.newDictionary t.filePath) fun _ => none := by
      rw [hdict]
      exact serves_construct hs hbuild
    have hmem := hfits.dictionary.held (hrange _ hN.dictionary) hstart hserves hm
    rw [addressesOf, hN.dictionary] at hmem
    have hlt := hmem.2
    omega

/-- After a load, the accesses of the load and of any later queries are at addresses below the
`block_number` of the client if and only if it leaves enough room. -/
theorem addresses_fit_iff (h : Loads l e t s) (hN : BlockNumber l t N) (findPad : ℤ → ℤ) :
    (∀ s', Queried l findPad s s' → Fits l t s') ↔ Roomy l e t N := by
  constructor
  · intro hfits
    exact Loads.roomy h hN (hfits s Relation.ReflTransGen.refl)
  · intro hroomy s' hqueried
    obtain ⟨padded, hpadded, hlen, hindex, _, hranges⟩ := Loads.uses h
    obtain ⟨padded', hpadded', hslots, hids⟩ := hroomy
    cases hpadded.symm.trans hpadded'
    have hrows := rows_le_memory h.loadable.table h.indexable.columns
    have hsizes := length_le_keywordSizes l.setup.log (show 1 < l.x from h.indexable.x) t.memory
    have hdouble := Nat.mul_le_mul_right (keywordSizes l.setup.log l.x t.memory) h.indexable.x
    have hlong : t.rows.length ≤ (l.sort.sort padded.1.memory).length := by omega
    exact (Queried.tracked hqueried ⟨hindex, hranges⟩).fits hN hlong hslots hids

theorem descending_loads {blockNumber : ℕ} {o : Oram}
    (hbuild : construct.run (blank 1 blockNumber .new ⟨0, fun k => k, 0⟩) = .ok ⟨⟩ o)
    (e : Entropy) : ∃ s, Loads (sampleLoader o) e descending s ∧
      BlockNumber (sampleLoader o) descending blockNumber := by
  obtain ⟨s, _, hloads⟩ := descending_load hbuild e
  have hblocks : o.numBlocks = blockNumber := by rw [construct_ok hbuild]; rfl
  exact ⟨s, hloads, hblocks, fun _ _ => hblocks⟩

theorem descending_slots {o : Oram} {s : SealClient} (h : Loads (sampleLoader o) e descending s) :
    ∃ padded, adjPadding (sampleLoader o).setup.log (sampleLoader o).x
        (sampleLoader o).setup.secretKey descending.memory (countTable descending.memory) e =
          some padded ∧
      ((sampleLoader o).sort.sort padded.1.memory).length = 9 ∧
      2 ^ (baseOf (sampleLoader o).setup.log ((sampleLoader o).sort.sort padded.1.memory).length -
        (sampleLoader o).setup.alpha) = 8 := by
  obtain ⟨padded, hpadded, hlen, _⟩ := Loads.uses h
  have hnine : ((sampleLoader o).sort.sort padded.1.memory).length = 9 :=
    hlen.trans descending_sizes
  have hslots : 2 ^ (baseOf .ideal 9 - 1) = 8 := by decide +kernel
  exact ⟨padded, hpadded, hnine, hnine.symm ▸ hslots⟩

theorem addresses_fit_iff_sixteen_blocks :
    ∃ (o : Oram) (s : SealClient),
      construct.run (blank 1 16 .new ⟨0, fun k => k, 0⟩) = .ok ⟨⟩ o ∧
      Loads (sampleLoader o) ⟨fun k => k, 0, fun k => k, 0⟩ descending s ∧
      ∀ s', Queried (sampleLoader o) id s s' → Fits (sampleLoader o) descending s' := by
  have hbuild : construct.run (blank 1 16 .new ⟨0, fun k => k, 0⟩) =
      .ok ⟨⟩ (constructed 1 16 .new ⟨0, fun k => k, 0⟩) :=
    construct_returns (by decide) (by decide) (by decide) (fun _ => rfl) _
  generalize constructed 1 16 .new _ = o at hbuild
  obtain ⟨s, hloads, hN⟩ := descending_loads hbuild ⟨fun k => k, 0, fun k => k, 0⟩
  refine ⟨o, s, hbuild, hloads, (addresses_fit_iff hloads hN id).mpr ?_⟩
  obtain ⟨padded, hpadded, hlen, hslots⟩ := descending_slots hloads
  refine ⟨padded, hpadded, by rw [hslots]; decide, ?_⟩
  intro w hw
  have hlt := List.idxOf_lt_length_of_mem hw
  rw [keys, List.length_map, hlen] at hlt
  rw [keys]
  omega

/-- With two blocks, addresses beyond the second are used. -/
theorem two_blocks_do_not_fit :
    ∃ (o : Oram) (s : SealClient),
      construct.run (blank 1 2 .new ⟨0, fun k => k, 0⟩) = .ok ⟨⟩ o ∧
      Loads (sampleLoader o) ⟨fun k => k, 0, fun k => k, 0⟩ descending s ∧
      BlockNumber (sampleLoader o) descending 2 ∧ ¬ Fits (sampleLoader o) descending s := by
  obtain ⟨o, hbuild⟩ := construct_small
  obtain ⟨s, hloads, hN⟩ := descending_loads hbuild ⟨fun k => k, 0, fun k => k, 0⟩
  refine ⟨o, s, hbuild, hloads, hN, ?_⟩
  intro hfits
  obtain ⟨padded, hpadded, _, hslots⟩ := descending_slots hloads
  obtain ⟨padded', hpadded', hroom, _⟩ := Loads.roomy hloads hN hfits
  cases hpadded.symm.trans hpadded'
  rw [hslots] at hroom
  omega

end TableAddresses
