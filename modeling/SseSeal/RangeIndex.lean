import SseSeal.KeywordIndex
import SseSeal.RangeTree

/-! Range search: the tree of a column tells which documents have a value in a range, and the
sub-ORAMs of the column hold the documents in the order of their values. -/
namespace RangeIndex

open Bytes Objects ObjectArchive StateExcept StringCipher SortedMap OramAccessController Padding
open PaddedMemory IndexStrings SortedBlocks SubArrays SubOrams KeywordIndex RangeTree

structure Ranges where
  counter : ℕ
  rootT1 : Dict Str (T1 × Dict ℕ RangeNode)
  adjOramAccessControllersRange : Dict Str (List Controller)
  kwdSize : Dict Str ℕ

abbrev RangeM := EStateM IndexError Ranges

def controllersOf (mapKey : Str) (s : Ranges) : List Controller :=
  (s.adjOramAccessControllersRange.find? mapKey).getD []

def setControllers (mapKey : Str) (ks : List Controller) (s : Ranges) : Ranges :=
  { s with adjOramAccessControllersRange :=
      s.adjOramAccessControllersRange.alter mapKey fun _ => ks }

def onControllers {α : Type} (mapKey : Str) (x : SubOramM α) : RangeM α :=
  focus (controllersOf mapKey) (setControllers mapKey) .subOram x

def stoi (s : Str) : RangeM ℤ := do
  let n ← orThrow .invalidArgument (signedValue s)
  if -2 ^ 31 ≤ n ∧ n < 2 ^ 31 then return n else throw .outOfRange

section Operations

variable (p : Setup)

def adjInsertRange (sortedDocuments : List Document) (mapKey : Str) : RangeM PUnit := do
  modify fun s => { s with kwdSize := s.kwdSize.alter mapKey fun _ => sortedDocuments.length }
  onControllers mapKey (adjOramInit p mapKey sortedDocuments)

def setRootT1 (keywordIdPairs : List (Str × ℕ)) (mapKey : Str) : RangeM PUnit :=
  modify fun s =>
    let built := buildTreeT1 keywordIdPairs mapKey 1 8 s.counter
    let links := addInternalNodesForTreeT1 built.1 built.2
    { s with
      counter := links.counter
      rootT1 := s.rootT1.alter mapKey fun _ => (built.1, links.parents) }

/-- The part of the loop of `adj_data_in` that makes a column searchable by ranges. -/
def loadColumn (sort : KeySort) (tmp : Memory) (mapKey : Str) : RangeM PUnit := do
  let rangeQueryHelper := sort.sort tmp
  setRootT1 (rangeQueryHelper.map fun item => (item.1, item.2.id)) mapKey
  adjInsertRange p (rangeQueryHelper.map Prod.snd) mapKey

def searchRangeHelper (mapKey : Str) : List ℕ → RangeM (List Document)
  | [] => return []
  | i :: docSubscripts => do
    let size := ((← get).kwdSize.find? mapKey).getD 0
    let doc ← onControllers mapKey (readSubscript p size i)
    return doc :: (← searchRangeHelper mapKey docSubscripts)

def searchRange (mapKey lower upper : Str) : RangeM (List Document) := do
  let lowerBound ← stoi (cString lower)
  let upperBound ← stoi (cString upper)
  let root ← orThrow .undefinedBehaviour ((← get).rootT1.find? (cString mapKey))
  let singleNode ← orThrow .undefinedBehaviour
    (singleRangeCover root.2 root.1 lowerBound upperBound)
  searchRangeHelper p (cString mapKey)
    (docSubscripts singleNode.kwdDocPairs lowerBound upperBound)

end Operations

variable {p : Setup} {s s' : Ranges} {mapKey other : Str} {sorted tmp : Memory}

/-- A column is served: its tree answers the ranges with document ids, and its sub-ORAMs hold
the documents in the order of their keywords. -/
structure Serving (p : Setup) (s : Ranges) (mapKey : Str) (sorted : Memory) : Prop where
  root : ∃ root, s.rootT1.find? mapKey = some root ∧ ∀ lo hi : ℤ, 1 ≤ lo → lo ≤ hi → hi ≤ 8 →
    ∃ d, singleRangeCover root.2 root.1 lo hi = some d ∧
      Full (fun key => findAll (sorted.map fun item => (item.1, item.2.id))
        (mapKey ++ toSigned key)) lo hi d
  size : s.kwdSize.find? mapKey = some sorted.length
  documents : Holds p (controllersOf mapKey s) (sorted.map Prod.snd)

structure SameColumn (mapKey : Str) (s s' : Ranges) : Prop where
  rootT1 : s'.rootT1.find? mapKey = s.rootT1.find? mapKey
  controllers : s'.adjOramAccessControllersRange.find? mapKey =
    s.adjOramAccessControllersRange.find? mapKey
  kwdSize : s'.kwdSize.find? mapKey = s.kwdSize.find? mapKey

theorem Serving.congr (h : Serving p s mapKey sorted) (hsame : SameColumn mapKey s s') :
    Serving p s' mapKey sorted := by
  obtain ⟨hroot, hsize, hdocs⟩ := h
  exact ⟨by rwa [hsame.rootT1], by rwa [hsame.kwdSize], by rwa [controllersOf, hsame.controllers]⟩

theorem onControllers_returns {α : Type} {y : SubOramM α} {post : α → List Controller → Prop}
    (h : Returns y (controllersOf mapKey s) post) :
    Returns (onControllers mapKey y) s fun a s' =>
      ∃ ks, post a ks ∧ s' = setControllers mapKey ks s :=
  h.focus (controllersOf mapKey) (setControllers mapKey) IndexError.subOram

@[simp] theorem controllersOf_setControllers (mapKey : Str) (ks : List Controller) (s : Ranges) :
    controllersOf mapKey (setControllers mapKey ks s) = ks := by
  simp [controllersOf, setControllers]

theorem setRootT1_returns (pairs : List (Str × ℕ)) (mapKey : Str) :
    Returns (setRootT1 pairs mapKey) s fun _ s' =>
      (∃ root, s'.rootT1.find? mapKey = some root ∧ ∀ lo hi : ℤ, 1 ≤ lo → lo ≤ hi → hi ≤ 8 →
        ∃ d, singleRangeCover root.2 root.1 lo hi = some d ∧
          Full (fun key => findAll pairs (mapKey ++ toSigned key)) lo hi d) ∧
      s'.adjOramAccessControllersRange = s.adjOramAccessControllersRange ∧
      ∀ other ≠ mapKey, SameColumn other s s' := by
  refine returns_modify.imp ?_
  intro _ _ hstep
  subst hstep
  refine ⟨⟨_, Dict.find?_alter_self, ?_⟩, rfl, ?_⟩
  · intro lo hi hlo _ hhi
    exact buildTreeT1_cover pairs mapKey 2 1 s.counter hlo hhi
  · intro other hother
    exact ⟨Dict.find?_alter_of_ne hother, rfl, rfl⟩

theorem loadColumn_returns (sort : KeySort) (hkey : 16 ≤ p.secretKey.length)
    (hnew : ∀ i, Serves (p.newController mapKey i) fun _ => none)
    (halpha : p.alpha ≤ baseOf p.log tmp.length) (hbase : baseOf p.log tmp.length ≤ 31)
    (hs : ∀ b ∈ tmp, Storable (documentCodec.serialize b.2))
    (hnone : s.adjOramAccessControllersRange.find? mapKey = none) :
    Returns (loadColumn p sort tmp mapKey) s fun _ s' =>
      Serving p s' mapKey (sort.sort tmp) ∧ ∀ other ≠ mapKey, SameColumn other s s' := by
  have hperm := sort.perm tmp
  have hlength : ((sort.sort tmp).map Prod.snd).length = tmp.length := by
    rw [List.length_map, hperm.length_eq]
  have hempty : Storable (documentCodec.serialize ⟨0, []⟩) :=
    Short.storable ⟨by decide, by decide, by simp⟩
  have hstored : ∀ d ∈ (sort.sort tmp).map Prod.snd,
      Storable (documentCodec.serialize d) := by
    intro d hd
    obtain ⟨b, hb, rfl⟩ := List.mem_map.mp hd
    exact hs b (hperm.subset hb)
  have hinit : Returns (adjOramInit p mapKey ((sort.sort tmp).map Prod.snd)) []
      fun _ ks => Holds p ks ((sort.sort tmp).map Prod.snd) :=
    adjOramInit_returns hkey hnew (by rwa [hlength]) (by rwa [hlength]) hempty hstored
  refine (setRootT1_returns _ mapKey).bind ?_
  intro _ s₁ hpost
  obtain ⟨hroot, hcontrollers, hsame₁⟩ := hpost
  refine returns_modify.bind ?_
  intro _ s₂ hstep
  subst hstep
  have hstart : controllersOf mapKey { s₁ with
      kwdSize := s₁.kwdSize.alter mapKey fun _ => ((sort.sort tmp).map Prod.snd).length } = [] := by
    rw [controllersOf, hcontrollers, hnone]
    rfl
  refine (onControllers_returns (by rwa [hstart])).imp ?_
  intro _ _ hpost
  obtain ⟨ks, hholds, rfl⟩ := hpost
  refine ⟨⟨hroot, ?_, ?_⟩, ?_⟩
  · simp [setControllers]
  · rwa [controllersOf_setControllers]
  · intro other hother
    obtain ⟨h₁, h₂, h₃⟩ := hsame₁ other hother
    refine ⟨h₁, ?_, ?_⟩
    · rw [← h₂]
      exact Dict.find?_alter_of_ne hother
    · rw [← h₃]
      exact Dict.find?_alter_of_ne hother

theorem stoi_toDecimal {n : ℕ} (h : n < 2 ^ 31) :
    Returns (stoi (toDecimal n)) s fun m s' => m = (n : ℤ) ∧ s' = s := by
  refine (orThrow_returns (signedValue_toDecimal n)).bind ?_
  intro _ _ hpost
  obtain ⟨rfl, rfl⟩ := hpost
  rw [if_pos (by omega)]
  exact returns_pure ⟨rfl, rfl⟩

theorem searchRangeHelper_returns (h : Serving p s mapKey sorted) {positions : List ℕ}
    (hpos : ∀ i ∈ positions, i < sorted.length) :
    Returns (searchRangeHelper p mapKey positions) s fun answer s' =>
      Serving p s' mapKey sorted ∧
        List.Forall₂ (fun i d => (sorted.map Prod.snd)[i]? = some d) positions answer := by
  induction positions generalizing s with
  | nil => exact returns_pure ⟨h, .nil⟩
  | cons i positions ih =>
    have hi : i < (sorted.map Prod.snd).length := by
      rw [List.length_map]
      exact hpos i List.mem_cons_self
    have hget := List.getElem?_eq_getElem hi
    refine returns_get.bind ?_
    intro _ s hpost
    obtain ⟨rfl, rfl⟩ := hpost
    have hread := readSubscript_returns h.documents hget
    rw [List.length_map] at hread
    rw [h.size, Option.getD_some]
    refine (onControllers_returns hread).bind ?_
    intro d _ hpost
    obtain ⟨ks, ⟨rfl, hholds⟩, rfl⟩ := hpost
    have h' : Serving p (setControllers mapKey ks s) mapKey sorted :=
      ⟨h.root, h.size, by rwa [controllersOf_setControllers]⟩
    refine (ih h' fun j hj => hpos j (List.mem_cons_of_mem _ hj)).bind ?_
    intro answer s' hpost
    obtain ⟨hserving, hanswer⟩ := hpost
    exact returns_pure ⟨hserving, .cons hget hanswer⟩

theorem toSigned_cast (n : ℕ) : toSigned (n : ℤ) = toDecimal n := by
  rw [toSigned, if_neg (by omega), Int.natAbs_natCast]

def Labelled (mapKey : Str) (val : Document → ℕ) (memory : Memory) : Prop :=
  ∀ item ∈ memory, item.1 = mapKey ++ toDecimal (val item.2)

theorem searchRange_returns (h : Serving p s mapKey sorted) {val : Document → ℕ}
    (hlabel : Labelled mapKey val sorted) (hids : ∀ item ∈ sorted, item.2.id < sorted.length)
    (hnul : cString mapKey = mapKey) {lo hi : ℕ} (hlo : 1 ≤ lo) (hle : lo ≤ hi) (hhi : hi ≤ 8) :
    Returns (searchRange p mapKey (toDecimal lo) (toDecimal hi)) s fun answer s' =>
      Serving p s' mapKey sorted ∧ ∃ positions,
        positions.Perm (((sorted.map Prod.snd).filter fun d => lo ≤ val d ∧ val d ≤ hi).map
          Document.id) ∧
        List.Forall₂ (fun i d => (sorted.map Prod.snd)[i]? = some d) positions answer := by
  obtain ⟨root, hroot, hcover⟩ := h.root
  obtain ⟨d, hd, hfull⟩ := hcover lo hi (by omega) (by omega) (by omega)
  have hfull' : Full (fun key => ((sorted.map Prod.snd).filter fun d => (val d : ℤ) = key).map
      Document.id) lo hi d := by
    intro key h₁ h₂
    rw [hfull key h₁ h₂]
    obtain ⟨n, rfl⟩ := Int.eq_ofNat_of_zero_le (show 0 ≤ key by omega)
    simp only [findAll, toSigned_cast, List.filter_map, List.map_map]
    congr 1
    apply List.filter_congr
    intro item hitem
    simp [hlabel item hitem, toDecimal_injective.eq_iff]
  have hperm := docSubscripts_perm hfull'
  simp only [Nat.cast_le] at hperm
  have hpos : ∀ i ∈ docSubscripts d.kwdDocPairs lo hi, i < sorted.length := by
    intro i hi
    obtain ⟨d, hd, rfl⟩ := List.mem_map.mp (hperm.subset hi)
    obtain ⟨item, hitem, rfl⟩ := List.mem_map.mp (List.mem_filter.mp hd).1
    exact hids item hitem
  rw [searchRange, cString_toDecimal, cString_toDecimal, hnul]
  refine (stoi_toDecimal (by omega)).bind ?_
  intro _ s hpost
  obtain ⟨rfl, rfl⟩ := hpost
  refine (stoi_toDecimal (by omega)).bind ?_
  intro _ s hpost
  obtain ⟨rfl, rfl⟩ := hpost
  refine returns_get.bind ?_
  intro _ s hpost
  obtain ⟨rfl, rfl⟩ := hpost
  refine (orThrow_returns hroot).bind ?_
  intro _ s hpost
  obtain ⟨rfl, rfl⟩ := hpost
  refine (orThrow_returns hd).bind ?_
  intro _ s hpost
  obtain ⟨rfl, rfl⟩ := hpost
  refine (searchRangeHelper_returns h hpos).imp ?_
  intro answer s' hpost
  obtain ⟨hserving, hread⟩ := hpost
  exact ⟨hserving, _, hperm, hread⟩

/-- A range search answers with the documents of the range if and only if the rows of the range
are those whose numbers are the slots of its documents. -/
theorem searchRange_perm_iff (h : Serving p s mapKey sorted) {val : Document → ℕ}
    (hlabel : Labelled mapKey val sorted)
    (hids : ((sorted.map Prod.snd).map Document.id).Perm (List.range sorted.length))
    (horder : ((sorted.map Prod.snd).map val).Pairwise (· ≤ ·))
    (hnul : cString mapKey = mapKey) {lo hi : ℕ} (hlo : 1 ≤ lo) (hle : lo ≤ hi) (hhi : hi ≤ 8) :
    ∃ answer s', (searchRange p mapKey (toDecimal lo) (toDecimal hi)).run s = .ok answer s' ∧
      Serving p s' mapKey sorted ∧
      (answer.Perm ((sorted.map Prod.snd).filter fun d => lo ≤ val d ∧ val d ≤ hi) ↔
        ∀ d ∈ sorted.map Prod.snd, (lo ≤ val d ∧ val d ≤ hi) ↔
          ((sorted.map Prod.snd).map val).countP (· < lo) ≤ d.id ∧
            d.id < ((sorted.map Prod.snd).map val).countP (· ≤ hi)) := by
  have hnodup : ((sorted.map Prod.snd).map Document.id).Nodup :=
    hids.nodup_iff.mpr List.nodup_range
  have hlt : ∀ item ∈ sorted, item.2.id < sorted.length := by
    intro item hitem
    have hmem := hids.subset (List.mem_map_of_mem (f := Document.id)
      (List.mem_map_of_mem (f := Prod.snd) hitem))
    exact List.mem_range.mp hmem
  obtain ⟨answer, s', hrun, hserving, positions, hperm, hread⟩ :=
    searchRange_returns h hlabel hlt hnul hlo hle hhi
  refine ⟨answer, s', hrun, hserving, ?_⟩
  have hpositions : positions.Nodup :=
    hperm.nodup_iff.mpr (hnodup.sublist (List.filter_sublist.map _))
  rw [select_perm_iff (List.Nodup.of_map _ hnodup) horder hpositions hread]
  have hin : ∀ d ∈ sorted.map Prod.snd, d.id ∈ positions ↔ lo ≤ val d ∧ val d ≤ hi := by
    intro d hd
    rw [hperm.mem_iff, List.mem_map]
    constructor
    · rintro ⟨b, hb, hid⟩
      rw [List.inj_on_of_nodup_map hnodup (List.mem_filter.mp hb).1 hd hid] at hb
      simpa using (List.mem_filter.mp hb).2
    · intro hrange
      exact ⟨d, List.mem_filter.mpr ⟨hd, by simpa using hrange⟩, rfl⟩
  rw [List.length_map]
  constructor
  · intro hblock d hd
    have hmem := hids.subset (List.mem_map_of_mem (f := Document.id) hd)
    rw [← hin d hd]
    exact hblock d.id (List.mem_range.mp hmem)
  · intro hrows i hi
    obtain ⟨d, hd, rfl⟩ := List.mem_map.mp (hids.symm.subset (List.mem_range.mpr hi))
    rw [hin d hd]
    exact hrows d hd

end RangeIndex
