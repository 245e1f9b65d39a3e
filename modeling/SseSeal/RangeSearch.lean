import SseSeal.TableLoading
import Mathlib.Data.List.Lex

/-! What a range search answers on a loaded table. The tree of a column numbers the documents by
their rows, the sub-ORAMs by their places in the order of the values. -/
namespace RangeSearch

open Bytes Objects ObjectArchive StateExcept StringCipher SortedMap OramReadPathEviction
open OramMemory OramAccessController Padding PaddedMemory IndexStrings SortedBlocks SubArrays
open SubOrams Dictionary KeywordIndex RangeIndex TableLoading

def Decimals (t : Table) (i : ℕ) (values : List ℕ) : Prop :=
  t.rows.map (fun row => row[i]?) = values.map fun v => some (toDecimal v)

def rowsBetween (t : Table) (values : List ℕ) (lower upper : ℕ) : List Document :=
  ((t.documents.zip values).filter fun row => lower ≤ row.2 ∧ row.2 ≤ upper).map Prod.fst

/-- A column that `search_range` may be asked about. A column without a name has its sub-ORAMs at
the place of the server that those of the keywords get, so that the load empties them again. -/
structure Searchable (t : Table) (name : Str) (i : ℕ) : Prop where
  column : t.columnNames[i]? = some name
  named : name ≠ []
  nul : 0 ∉ t.filePath ++ name

/-- The rows with a value in a range are those whose numbers are the places of the range in the
order of the values. -/
def InPlace (values : List ℕ) (lower upper : ℕ) : Prop :=
  ∀ j v, values[j]? = some v → ((lower ≤ v ∧ v ≤ upper) ↔
    values.countP (· < lower) ≤ j ∧ j < values.countP (· ≤ upper))

def valueOf (values : List ℕ) (d : Document) : ℕ := (values[d.id]?).getD 0

variable {t : Table} {l : Loader} {e : Entropy} {name : Str} {i lo hi v w : ℕ} {values : List ℕ}
  {s₀ s : SealClient}

theorem Decimals.length (h : Decimals t i values) : t.rows.length = values.length := by
  have hlen := congrArg List.length h
  rwa [List.length_map, List.length_map] at hlen

theorem Decimals.cells (h : Decimals t i values) : t.cells i = values.map toDecimal := by
  have hid : ∀ rows : List (List Str), rows.filterMap (fun row => row[i]?) =
      (rows.map fun row => row[i]?).filterMap id := by
    intro rows
    rw [List.filterMap_map]
    rfl
  rw [Table.cells, hid, h, List.filterMap_map]
  exact congrFun List.filterMap_eq_map values

theorem documents_id (t : Table) : t.documents.map Document.id = List.range t.rows.length := by
  have hsnd : (Document.id ∘ fun row : List Str × ℕ => Document.ofTokens row.2 row.1) =
      Prod.snd := rfl
  rw [Table.documents, List.map_map, hsnd, List.zipIdx_map_snd, List.range_eq_range']

theorem documents_value (h : t.rows.length = values.length) :
    t.documents.map (valueOf values) = values := by
  have hcomp : valueOf values = (fun j => (values[j]?).getD 0) ∘ Document.id := rfl
  rw [hcomp, ← List.map_map, documents_id, h]
  apply List.ext_getElem?
  intro j
  rw [List.getElem?_map]
  by_cases hj : j < values.length
  · rw [List.getElem?_range hj, List.getElem?_eq_getElem hj]
    simp [hj]
  · rw [List.getElem?_eq_none (by rw [List.length_range]; omega),
      List.getElem?_eq_none (by omega)]
    rfl

theorem rowsBetween_eq (h : t.rows.length = values.length) :
    rowsBetween t values lo hi =
      t.documents.filter fun d => lo ≤ valueOf values d ∧ valueOf values d ≤ hi := by
  have hzip : t.documents.zip values = t.documents.map fun d => (d, valueOf values d) := by
    have hself : ∀ ds : List Document,
        ds.zip (ds.map (valueOf values)) = ds.map fun d => (d, valueOf values d) := by
      intro ds
      induction ds with
      | nil => rfl
      | cons d ds ih => rw [List.map_cons, List.zip_cons_cons, ih, List.map_cons]
    have hzip := hself t.documents
    rwa [documents_value h] at hzip
  rw [rowsBetween, hzip, List.filter_map, List.map_map]
  exact List.map_id _

theorem columnEntries_labelled (h : Decimals t i values) (name : Str) :
    Labelled (t.filePath ++ name) (valueOf values) (t.columnEntries name (t.cells i)) := by
  intro item hitem
  rw [h.cells] at hitem
  obtain ⟨⟨⟨cell, row⟩, j⟩, hrow, rfl⟩ := List.mem_map.mp hitem
  obtain ⟨hlt, hget⟩ := List.mem_zipIdx' hrow
  rw [List.getElem_zip, List.getElem_map] at hget
  have hj : j < values.length := by
    rw [List.length_zip, List.length_map] at hlt
    omega
  have hvalue : valueOf values (Document.ofTokens j row) = values[j] := by
    rw [valueOf, Document.ofTokens, List.getElem?_eq_getElem hj]
    rfl
  rw [hvalue, (Prod.mk.inj hget).1]

theorem keyword_lt (mapKey : Str) (hv : v < w) (hw : w ≤ 9) :
    mapKey ++ toDecimal v < mapKey ++ toDecimal w := by
  have hdigit : ∀ n ≤ 9, toDecimal n = [UInt8.ofNat (48 + n)] := by decide
  rw [hdigit v (by omega), hdigit w hw]
  refine List.Lex.append_left _ (.rel ?_) mapKey
  rw [UInt8.lt_iff_toNat_lt, UInt8.toNat_ofNat', UInt8.toNat_ofNat']
  omega

theorem keyword_le (mapKey : Str) (hv : v ≤ 9) (h : mapKey ++ toDecimal v ≤ mapKey ++ toDecimal w) :
    v ≤ w := by
  by_contra hlt
  exact (keyword_lt mapKey (not_le.mp hlt) hv).not_ge h

theorem inPlace_iff (h : t.rows.length = values.length) : InPlace values lo hi ↔
    ∀ d ∈ t.documents, (lo ≤ valueOf values d ∧ valueOf values d ≤ hi) ↔
      values.countP (· < lo) ≤ d.id ∧ d.id < values.countP (· ≤ hi) := by
  have hid : ∀ d ∈ t.documents, values[d.id]? = some (valueOf values d) := by
    intro d hd
    have hmem := List.mem_map_of_mem (f := Document.id) hd
    rw [documents_id, List.mem_range, h] at hmem
    rw [valueOf, List.getElem?_eq_getElem hmem]
    rfl
  constructor
  · intro hplace d hd
    exact hplace d.id _ (hid d hd)
  · intro hdocs j v hj
    have hlt := (List.getElem?_eq_some_iff.mp hj).1
    have hmem : j ∈ t.documents.map Document.id := by rwa [documents_id, List.mem_range, h]
    obtain ⟨d, hd, rfl⟩ := List.mem_map.mp hmem
    have hvalue := hid d hd
    rw [hj, Option.some.injEq] at hvalue
    rw [hvalue]
    exact hdocs d hd

theorem columned_searchRange {r : Ranges} (hserving : Columned l t r (name, i))
    (hnul : 0 ∉ t.filePath ++ name) (hvalues : Decimals t i values)
    (hrange : ∀ v ∈ values, 1 ≤ v ∧ v ≤ 8) (hlo : 1 ≤ lo) (hle : lo ≤ hi) (hhi : hi ≤ 8) :
    ∃ answer r', (searchRange l.setup (t.filePath ++ name) (toDecimal lo) (toDecimal hi)).run r =
        .ok answer r' ∧
      (answer.Perm (rowsBetween t values lo hi) ↔ InPlace values lo hi) := by
  have hperm := l.sort.perm (t.columnEntries name (t.cells i))
  have hsort := l.sort.sorted (t.columnEntries name (t.cells i))
  rw [Columned] at hserving
  dsimp only at hserving
  generalize l.sort.sort (t.columnEntries name (t.cells i)) = sorted at hserving hperm hsort
  have hlen := hvalues.length
  have hcells : (t.cells i).length = t.rows.length := by
    rw [hvalues.cells, List.length_map, hlen]
  have hdocs : (sorted.map Prod.snd).Perm t.documents := by
    rw [← columnEntries_documents hcells name]
    exact hperm.map Prod.snd
  have hlabel : Labelled (t.filePath ++ name) (valueOf values) sorted := fun item hitem =>
    columnEntries_labelled hvalues name item (hperm.subset hitem)
  have hids : ((sorted.map Prod.snd).map Document.id).Perm (List.range sorted.length) := by
    rw [hperm.length_eq, columnEntries_length hcells, ← documents_id]
    exact hdocs.map Document.id
  have hval : ((sorted.map Prod.snd).map (valueOf values)).Perm values := by
    have hmap := hdocs.map (valueOf values)
    rwa [documents_value hlen] at hmap
  have hdigit : ∀ item ∈ sorted, valueOf values item.2 ≤ 9 := by
    intro item hitem
    have hmem := hval.subset (List.mem_map_of_mem (f := valueOf values)
      (List.mem_map_of_mem (f := Prod.snd) hitem))
    have hle := (hrange _ hmem).2
    omega
  have horder : ((sorted.map Prod.snd).map (valueOf values)).Pairwise (· ≤ ·) := by
    rw [keys, List.pairwise_map] at hsort
    rw [List.map_map, List.pairwise_map]
    refine hsort.imp_of_mem ?_
    intro a b ha hb hab
    rw [hlabel a ha, hlabel b hb] at hab
    exact keyword_le _ (hdigit a ha) hab
  have hcstring : cString (t.filePath ++ name) = t.filePath ++ name := by
    apply List.takeWhile_eq_self_iff.mpr
    intro b hb
    rw [bne_iff_ne]
    rintro rfl
    exact hnul hb
  obtain ⟨answer, r', hrun, _, hiff⟩ :=
    searchRange_perm_iff hserving hlabel hids horder hcstring hlo hle hhi
  refine ⟨answer, r', hrun, ?_⟩
  rw [rowsBetween_eq hlen, inPlace_iff hlen]
  rw [hval.countP_eq, hval.countP_eq] at hiff
  have hfilter := hdocs.filter fun d => lo ≤ valueOf values d ∧ valueOf values d ≤ hi
  have hanswer : answer.Perm ((sorted.map Prod.snd).filter fun d =>
      lo ≤ valueOf values d ∧ valueOf values d ≤ hi) ↔
      answer.Perm (t.documents.filter fun d =>
        lo ≤ valueOf values d ∧ valueOf values d ≤ hi) :=
    ⟨fun ha => ha.trans hfilter, fun ha => ha.trans hfilter.symm⟩
  rw [← hanswer, hiff]
  constructor
  · intro hall d hd
    exact hall d (hdocs.symm.subset hd)
  · intro hall d hd
    exact hall d (hdocs.subset hd)

def sampleLoader (o : Oram) : Loader :=
  ⟨sampleSetup o, ObjectArchive.nodeCodec, fun _ => ⟨o, 0⟩, .newestFirst, .stable, 2, 10, id⟩

def descending : Table := ⟨[116], [[107]], [[toDecimal 2], [toDecimal 1]]⟩

theorem descending_decimals : Decimals descending 0 [2, 1] := rfl

theorem descending_sizes : 2 * keywordSizes .ideal 2 descending.memory + 1 = 9 := by decide +kernel

theorem descending_loadable {o : Oram} (h : Serves ⟨o, 0⟩ fun _ => none) :
    Loadable (sampleLoader o) descending ∧ Indexable (sampleLoader o) descending := by
  have hdocs : ∀ d ∈ descending.documents, d = ⟨0, []⟩ ∨ d = ⟨1, []⟩ := by decide
  have hsize : (sampleLoader o).x * keywordSizes (sampleLoader o).setup.log (sampleLoader o).x
      descending.memory + 1 = 9 := descending_sizes
  have hkeys : ∀ b ∈ descending.memory, b.1.length = 3 := by decide
  have halpha : 1 ≤ baseOf .ideal 2 := by decide
  have hbase : baseOf .ideal 2 ≤ 31 := by decide
  refine ⟨⟨⟨by decide, by decide⟩, sampleKey_length, fun _ _ => h, by decide, halpha, hbase,
    ?_⟩, ⟨by decide, le_rfl, by rw [hsize]; decide, ?_, by rw [hsize]; exact Nat.lt_succ_self 9⟩⟩
  · intro d hd
    rcases hdocs d hd with rfl | rfl
    · exact Short.storable ⟨by decide, by decide, by simp⟩
    · exact Short.storable ⟨by decide, by decide, by simp⟩
  · intro b hb
    rw [Storable, hkeys b hb, blockBytes]
    decide

theorem descending_load {blockNumber : ℕ} {o : Oram}
    (hbuild : construct.run (blank 1 blockNumber .new ⟨0, fun k => k, 0⟩) = .ok ⟨⟩ o)
    (e : Entropy) : ∃ s, (adjDataIn (sampleLoader o) e descending).run
      (.fresh (sampleLoader o) ⟨o, 0⟩) = .ok ⟨⟩ s ∧ Loads (sampleLoader o) e descending s := by
  obtain ⟨hl, hi⟩ := descending_loadable (serves_construct (fun _ => rfl) hbuild)
  obtain ⟨_, _, _, _, ⟨⟩, s, hrun, _⟩ :=
    adjDataIn_returns hl hi e ⟨o, 0⟩ (fun _ => rfl) hbuild rfl
  exact ⟨s, hrun, hl, hi, ⟨1, blockNumber, .new, ⟨0, fun k => k, 0⟩, o, fun _ => rfl, hbuild, rfl⟩,
    _, hrun⟩

end RangeSearch
