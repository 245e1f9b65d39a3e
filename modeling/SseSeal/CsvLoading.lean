import SseSeal.CsvGrammar
import SseSeal.KeywordColumns
import SseSeal.TableReloading

/-! Loading a CSV file, from its bytes. A file whose rows are all as long as its labels is loaded
as the table that its bytes show; the load of any other file throws. -/
namespace CsvLoading

open Bytes Objects StateExcept SortedMap Padding SubOrams OdictClient KeywordIndex RangeIndex
open TableLoading TableReloading KeywordColumns CsvReader CsvGrammar

def columnPairs (doc : CsvDocument) (filePath columnName : Str) (dataFrame : List Str) :
    Option Memory :=
  dataFrame.zipIdx.mapM fun cell => (doc.getRow cell.2).map fun tokens =>
    (filePath ++ columnName ++ cell.1, .ofTokens cell.2 tokens)

/-- The loop of `adj_data_in` over the columns of the document. -/
def loadFileColumns (l : Loader) (doc : CsvDocument) (filePath : Str) (columnNames : List Str) :
    List ℕ → RangeM Memory
  | [] => return []
  | i :: columns => do
    let dataFrame ← orThrow .outOfRange (doc.getColumn i)
    let columnName ← orThrow .undefinedBehaviour columnNames[i]?
    let tmp ← orThrow .outOfRange (columnPairs doc filePath columnName dataFrame)
    loadColumn l.setup l.sort tmp (filePath ++ columnName)
    let memory ← loadFileColumns l doc filePath columnNames columns
    return tmp ++ memory

def adjDataInFile (l : Loader) (e : Entropy) (filePath stream : Str) : SealM PUnit := caught do
  onIndex (onClient (openDictionary l filePath))
  onIndex (onClient (initDummyData l.codec))
  let doc := CsvDocument.labelled.readCsv stream
  let columnNames ← orThrow .outOfRange doc.getColumnNames
  let memory ← onRanges
    (loadFileColumns l doc filePath columnNames (List.range doc.getColumnCount))
  onIndex (loadMemory l.setup l.codec l.fuel l.insertPad l.sort l.x e filePath memory)

def values (file : List (List Str)) : List (List Str) := file.map (List.map (cellValue {}))

def Rectangular (file : List (List Str)) : Prop :=
  ∃ labels rows, file = labels :: rows ∧ ∀ ts ∈ rows, labels.length ≤ ts.length

variable {l : Loader} {e : Entropy} {filePath stream : Str} {doc : CsvDocument}
  {names : List Str} {rows file : List (List Str)} {columns : List ℕ} {s s' : SealClient}
  {t : Table}

theorem readCsv_values (stream : Str) : ∃ file, FileOf 44 file stream ∧
    (CsvDocument.labelled.readCsv stream).data = values file ∧
    (CsvDocument.labelled.readCsv stream).labelParams = ⟨0, -1⟩ := by
  obtain ⟨file, hfile, hread⟩ := readCsv_file lined_labelled stream
  refine ⟨file, hfile, ?_⟩
  rw [hread]
  exact ⟨rfl, rfl⟩

structure Labelled (doc : CsvDocument) (names : List Str) (rows : List (List Str)) : Prop where
  labelParams : doc.labelParams = ⟨0, -1⟩
  data : doc.data = names :: rows

theorem Labelled.dataRows (h : Labelled doc names rows) : doc.dataRows = rows := by
  rw [CsvDocument.dataRows, h.labelParams, h.data]
  rfl

theorem Labelled.dataCells (h : Labelled doc names rows) (row : List Str) :
    doc.dataCells row = row := by
  rw [CsvDocument.dataCells, h.labelParams]
  rfl

theorem Labelled.getColumnNames (h : Labelled doc names rows) :
    doc.getColumnNames = some names := by
  rw [CsvDocument.getColumnNames, h.data, h.labelParams]
  simp [h.dataCells]

theorem Labelled.getColumnCount (h : Labelled doc names rows) :
    doc.getColumnCount = names.length := by
  rw [CsvDocument.getColumnCount, h.data, h.labelParams]
  simp

theorem Labelled.getColumn (h : Labelled doc names rows) (filePath : Str) (i : ℕ) :
    doc.getColumn i = Table.getColumn ⟨filePath, names, rows⟩ i := by
  rw [CsvDocument.getColumn, h.dataRows, Table.getColumn, h.labelParams]
  rfl

theorem Labelled.getRow (h : Labelled doc names rows) (j : ℕ) : doc.getRow j = rows[j]? := by
  rw [CsvDocument.getRow, h.data, h.labelParams]
  have hcells : doc.dataCells = id := funext h.dataCells
  rw [hcells, Option.map_id]
  rfl

theorem getColumn_length {dataFrame : List Str} {i : ℕ} (h : t.getColumn i = some dataFrame) :
    dataFrame.length = t.rows.length := by
  rw [Table.getColumn] at h
  generalize t.rows = rows at h
  induction rows generalizing dataFrame with
  | nil =>
    cases h
    rfl
  | cons row rows ih =>
    rw [List.mapM_cons] at h
    simp only [Option.pure_def, Option.bind_eq_bind, Option.bind_eq_some_iff] at h
    obtain ⟨cell, _, cells, hcells, hsome⟩ := h
    cases hsome
    rw [List.length_cons, List.length_cons, ih hcells]

theorem getColumn_short {i : ℕ} {row : List Str} (hrow : row ∈ t.rows) (hi : row.length ≤ i) :
    t.getColumn i = none := by
  rw [Table.getColumn]
  generalize t.rows = rows at hrow
  induction rows with
  | nil => cases hrow
  | cons other rows ih =>
    rw [List.mapM_cons]
    rcases List.mem_cons.mp hrow with rfl | hrow
    · rw [List.getElem?_eq_none hi]
      rfl
    · rw [ih hrow]
      cases other[i]? <;> rfl

theorem mapM_eq_some {α β : Type} {f : α → Option β} {g : α → β} {l : List α}
    (h : ∀ a ∈ l, f a = some (g a)) : l.mapM f = some (l.map g) := by
  induction l with
  | nil => rfl
  | cons a l ih =>
    rw [List.mapM_cons, h a List.mem_cons_self, ih fun b hb => h b (List.mem_cons_of_mem a hb)]
    rfl

theorem Labelled.columnPairs (h : Labelled doc names rows) {dataFrame : List Str}
    (hlen : dataFrame.length = rows.length) (filePath name : Str) :
    columnPairs doc filePath name dataFrame =
      some (Table.columnEntries ⟨filePath, names, rows⟩ name dataFrame) := by
  have hpairs : CsvLoading.columnPairs doc filePath name dataFrame =
      some (dataFrame.zipIdx.map fun cell =>
        (filePath ++ name ++ cell.1, Document.ofTokens cell.2 ((rows[cell.2]?).getD []))) := by
    apply mapM_eq_some
    rintro ⟨cell, j⟩ hcell
    have hj : j < rows.length := hlen ▸ zipIdx_index hcell
    simp only [h.getRow, List.getElem?_eq_getElem hj, Option.map_some, Option.getD_some]
  rw [hpairs, Table.columnEntries]
  refine congrArg some (List.ext_getElem (by simp [hlen]) ?_)
  intro j hj _
  have hj : j < rows.length := by simpa [hlen] using hj
  simp [hj]

theorem Labelled.loadFileColumns (h : Labelled doc names rows)
    (hin : ∀ i ∈ columns, i < names.length) :
    loadFileColumns l doc filePath names columns =
      loadColumns l ⟨filePath, names, rows⟩ (columns.map fun i => ((names[i]?).getD [], i)) := by
  induction columns with
  | nil => rfl
  | cons i columns ih =>
    have hi := hin i List.mem_cons_self
    have hname := List.getElem?_eq_getElem hi
    rw [CsvLoading.loadFileColumns, List.map_cons, loadColumns, h.getColumn filePath,
      ih fun j hj => hin j (List.mem_cons_of_mem i hj), hname]
    cases hcolumn : Table.getColumn ⟨filePath, names, rows⟩ i with
    | none => rfl
    | some dataFrame =>
      have hpairs := h.columnPairs (getColumn_length hcolumn) filePath names[i]
      simp only [orThrow, pure_bind, hpairs]
      rfl

theorem zipIdx_eq_map (names : List Str) :
    (List.range names.length).map (fun i => ((names[i]?).getD [], i)) = names.zipIdx := by
  refine List.ext_getElem (by simp) ?_
  intro i hi _
  have hi : i < names.length := by simpa using hi
  simp [hi]

theorem adjDataInFile_eq
    (h : Labelled (CsvDocument.labelled.readCsv stream) names rows) :
    adjDataInFile l e filePath stream = adjDataIn l e ⟨filePath, names, rows⟩ := by
  have hcolumns : loadFileColumns l (CsvDocument.labelled.readCsv stream) filePath names
      (List.range names.length) =
      loadColumns l ⟨filePath, names, rows⟩ names.zipIdx := by
    rw [← zipIdx_eq_map]
    exact h.loadFileColumns fun i hi => List.mem_range.mp hi
  simp only [adjDataInFile, adjDataIn, h.getColumnNames, h.getColumnCount, hcolumns, orThrow,
    pure_bind]

theorem onIndexClient_ends {α : Type} (y : ClientM α) (s : SealClient) :
    Ends (onIndex (onClient y)) s (fun _ _ => True) fun e _ => e ≠ .invalidArgument := by
  have hclient := Ends.focus Index.client (fun c i => { i with client := c }) IndexError.client
    (ends_any y s.index.client)
  apply (Ends.focus SealClient.index (fun i s => { s with index := i }) id hclient).imp
  · exact fun _ _ _ => trivial
  · intro _ _ hpost
    obtain ⟨_, _, ⟨_, _, _, rfl, _⟩, rfl, _⟩ := hpost
    simp

theorem loadColumn_ends (tmp : Memory) (mapKey : Str) (r : Ranges) :
    Ends (loadColumn l.setup l.sort tmp mapKey) r (fun _ _ => True)
      fun e _ => e ≠ .invalidArgument := by
  apply returns_modify.ends.bind
  intro _ _ hstep
  subst hstep
  apply returns_modify.ends.bind
  intro _ _ hstep
  subst hstep
  apply (Ends.focus (controllersOf mapKey) (setControllers mapKey) IndexError.subOram
    (ends_any _ _)).imp
  · exact fun _ _ _ => trivial
  · intro _ _ hpost
    obtain ⟨e, _, _, rfl, _⟩ := hpost
    simp

theorem loadColumns_short {row : List Str} (hrow : row ∈ t.rows) {columns : List (Str × ℕ)}
    (hcolumns : ∃ column ∈ columns, row.length ≤ column.2) (r : Ranges) :
    Aborts (loadColumns l t columns) r := by
  induction columns generalizing r with
  | nil => simp at hcolumns
  | cons column columns ih =>
    cases hcolumn : t.getColumn column.2 with
    | none =>
      rw [loadColumns, hcolumn]
      exact ends_error rfl (by simp)
    | some dataFrame =>
      have htail : ∃ column ∈ columns, row.length ≤ column.2 := by
        obtain ⟨other, hother, hshort⟩ := hcolumns
        rcases List.mem_cons.mp hother with rfl | hother
        · rw [getColumn_short hrow hshort] at hcolumn
          cases hcolumn
        · exact ⟨other, hother, hshort⟩
      rw [loadColumns, hcolumn]
      apply aborts_after (loadColumn_ends _ _ r)
      intro _ r' _
      exact (ih htail r').bind

theorem caught_aborts {y : SealM PUnit} (h : Aborts y s) : (caught y).run s ≠ .ok ⟨⟩ s' := by
  intro hrun
  rcases caught_ok hrun with ⟨_, hok⟩ | herror
  · exact h.post_of_ok hok
  · exact h.bad_of_error herror rfl

theorem adjDataIn_short {row : List Str} (hrow : row ∈ t.rows)
    (hshort : row.length < t.columnNames.length) : (adjDataIn l e t).run s ≠ .ok ⟨⟩ s' := by
  have hcolumn : ∃ column ∈ t.columnNames.zipIdx, row.length ≤ column.2 := by
    refine ⟨(t.columnNames[row.length], row.length), ?_, le_refl row.length⟩
    exact List.mem_zipIdx_iff_getElem?.mpr (List.getElem?_eq_getElem hshort)
  apply caught_aborts
  apply aborts_after (onIndexClient_ends _ s)
  intro _ s₁ _
  apply aborts_after (onIndexClient_ends _ s₁)
  intro _ s₂ _
  apply Aborts.bind
  apply (Ends.focus SealClient.ranges (fun r s => { s with ranges := r }) id
    (loadColumns_short hrow hcolumn s₂.ranges)).imp
  · intro _ _ hpost
    obtain ⟨_, hfalse, _⟩ := hpost
    exact hfalse
  · intro _ _ hpost
    obtain ⟨e, _, he, rfl, _⟩ := hpost
    exact he

theorem adjDataInFile_empty (h : (CsvDocument.labelled.readCsv stream).getColumnNames = none) :
    (adjDataInFile l e filePath stream).run s ≠ .ok ⟨⟩ s' := by
  apply caught_aborts
  apply aborts_after (onIndexClient_ends _ s)
  intro _ s₁ _
  apply aborts_after (onIndexClient_ends _ s₁)
  intro _ s₂ _
  dsimp only
  rw [h]
  exact ends_error rfl (by simp)

/-- The bytes of a file settle whether it is loaded. If every row is as long as the labels, then
loading the file is loading the table of its values; else the load does not return, whatever the
state of the client is and its storage does. -/
theorem adjDataInFile_table (stream : Str) : ∃ file,
    (∀ other, FileOf 44 other stream ↔ other = file) ∧
    (Rectangular file → ∃ names rows, values file = names :: rows ∧
      ∀ l e filePath, adjDataInFile l e filePath stream = adjDataIn l e ⟨filePath, names, rows⟩) ∧
    (¬ Rectangular file → ∀ l e filePath s s',
      (adjDataInFile l e filePath stream).run s ≠ .ok ⟨⟩ s') := by
  obtain ⟨file, hfile, hdata, hparams⟩ := readCsv_values stream
  refine ⟨file, ?_, ?_, ?_⟩
  · intro other
    constructor
    · intro hother
      exact hother.unique hfile
    · rintro rfl
      exact hfile
  · rintro ⟨labels, rows, rfl, _⟩
    exact ⟨_, _, rfl, fun l e filePath => adjDataInFile_eq ⟨hparams, hdata⟩⟩
  · intro h l e filePath s s'
    cases file with
    | nil =>
      apply adjDataInFile_empty
      rw [CsvDocument.getColumnNames, hdata, hparams]
      rfl
    | cons labels rows =>
      obtain ⟨ts, hts, hshort⟩ : ∃ ts ∈ rows, ts.length < labels.length := by
        by_contra hnot
        push Not at hnot
        exact h ⟨labels, rows, rfl, hnot⟩
      rw [adjDataInFile_eq ⟨hparams, hdata⟩]
      have hrow : ts.map (cellValue {}) ∈ values rows := List.mem_map_of_mem hts
      exact adjDataIn_short hrow (by simpa using hshort)

def rowsWith (t : Table) (i : ℕ) (v : Str) : List Document :=
  (t.rows.zipIdx.filter fun row => row.1[i]? = some v).map fun row => .ofTokens row.2 row.1

theorem columnEntries_rows (ht : t.WellFormed) {i : ℕ} (hi : i < t.columnNames.length) (c : Str) :
    t.columnEntries c (t.cells i) = t.rows.zipIdx.map fun row =>
      (keyword t c ((row.1[i]?).getD []), .ofTokens row.2 row.1) := by
  have hlen := (ht.getColumn hi).2
  have hfull : ∀ row ∈ t.rows, i < row.length := fun row hrow => hi.trans_le (ht.full row hrow)
  rw [Table.columnEntries]
  refine List.ext_getElem (by simp [hlen]) ?_
  intro j hj _
  have hj : j < t.rows.length := by simpa [hlen] using hj
  have hcell := cells_getElem? (j := j) hfull
  rw [List.getElem?_eq_getElem (hlen ▸ hj), List.getElem?_eq_getElem hj, Option.bind_some] at hcell
  simp [keyword, ← hcell]

theorem filter_columnEntries (ht : t.WellFormed) {i : ℕ} {c v : Str}
    (hi : t.columnNames[i]? = some c) :
    ((t.columnEntries c (t.cells i)).filter fun b => b.1 = keyword t c v).map Prod.snd =
      rowsWith t i v := by
  obtain ⟨hlt, _⟩ := List.getElem?_eq_some_iff.mp hi
  rw [columnEntries_rows ht hlt, rowsWith, List.filter_map, List.map_map]
  refine congrArg _ (List.filter_congr ?_)
  intro row hrow
  have hlong : i < row.1.length :=
    hlt.trans_le (ht.full row.1 (List.fst_mem_of_mem_zipIdx hrow))
  simp [keyword, List.getElem?_eq_getElem hlong]

/-- Where the keywords of the columns differ, those of a value are its rows. -/
theorem filter_memory (ht : t.WellFormed) (hsep : Separates t) {i : ℕ} {c v : Str}
    (hi : t.columnNames[i]? = some c) (hv : v ∈ t.cells i) :
    (t.memory.filter fun b => b.1 = keyword t c v).map Prod.snd = rowsWith t i v := by
  have hmem : (c, i) ∈ t.columnNames.zipIdx := List.mem_zipIdx_iff_getElem?.mpr hi
  have hnodup : (t.columnNames.zipIdx.map Prod.fst).Nodup := by
    rw [List.zipIdx_map_fst]
    exact ht.distinct
  have hother : ∀ column ∈ t.columnNames.zipIdx, column.1 ≠ c →
      (t.columnEntries column.1 (t.cells column.2)).filter (fun b => b.1 = keyword t c v) = [] := by
    rintro ⟨c', i'⟩ hcolumn hne
    rw [List.filter_eq_nil_iff]
    rintro ⟨w, d⟩ hb hw
    obtain ⟨j, row, v', hrow, hcell, rfl, _⟩ :=
      (mem_columnEntries ht (zipIdx_index hcolumn)).mp hb
    have hname : t.columnNames[i']? = some c' := List.mem_zipIdx_iff_getElem?.mp hcolumn
    have hv' : v' ∈ t.cells i' := List.mem_filterMap.mpr ⟨row, List.mem_of_getElem? hrow, hcell⟩
    refine hsep c' v' c v ⟨i', hname, hv'⟩ ⟨i, hi, hv⟩ ?_ (by simpa using hw)
    intro heq
    exact hne (Prod.mk.inj heq).1
  obtain ⟨before, after, hsplit⟩ := List.append_of_mem hmem
  rw [hsplit, List.map_append, List.map_cons] at hnodup
  obtain ⟨_, hafter, hbefore⟩ := List.nodup_append.mp hnodup
  have hnil : ∀ part : List (Str × ℕ),
      (∀ column ∈ part, column ∈ t.columnNames.zipIdx ∧ column.1 ≠ c) →
      part.flatMap (fun column => (t.columnEntries column.1 (t.cells column.2)).filter
        fun b => b.1 = keyword t c v) = [] := by
    intro part hpart
    rw [List.flatMap_eq_nil_iff]
    intro column hcolumn
    exact hother column (hpart column hcolumn).1 (hpart column hcolumn).2
  rw [Table.memory, List.filter_flatMap, hsplit, List.flatMap_append, List.flatMap_cons,
    hnil before ?_, hnil after ?_, List.append_nil, List.nil_append, filter_columnEntries ht hi]
  · intro column hcolumn
    refine ⟨hsplit ▸ by simp [hcolumn], ?_⟩
    intro heq
    have hin := List.mem_map_of_mem (f := Prod.fst) hcolumn
    rw [heq] at hin
    exact (List.nodup_cons.mp hafter).1 hin
  · intro column hcolumn
    refine ⟨hsplit ▸ by simp [hcolumn], ?_⟩
    exact hbefore _ (List.mem_map_of_mem hcolumn) c List.mem_cons_self

/-- A load of a file on a fresh client whose storage calls all succeed. -/
structure LoadsFile (l : Loader) (e : Entropy) (stream : Str) (t : Table) (s : SealClient) :
    Prop where
  shows : ∃ file, FileOf 44 file stream ∧ values file = t.columnNames :: t.rows
  loadable : Loadable l t
  indexable : Indexable l t
  dictionary : ∃ bucketSize blockNumber storage randGen o, (∀ k, storage.fails k = false) ∧
    OramReadPathEviction.construct.run
      (OramReadPathEviction.blank bucketSize blockNumber storage randGen) = .ok ⟨⟩ o ∧
    l.newDictionary t.filePath = ⟨o, 0⟩
  run : ∃ k, (adjDataInFile l e t.filePath stream).run (.fresh l k) = .ok ⟨⟩ s

theorem LoadsFile.loads (h : LoadsFile l e stream t s) : Loads l e t s := by
  obtain ⟨file, hfile, hvalues⟩ := h.shows
  obtain ⟨read, hread, hdata, hparams⟩ := readCsv_values stream
  obtain rfl := hread.unique hfile
  obtain ⟨k, hrun⟩ := h.run
  rw [adjDataInFile_eq ⟨hparams, hdata.trans hvalues⟩] at hrun
  exact ⟨h.loadable, h.indexable, h.dictionary, k, hrun⟩

/-- A search for a value in a column of a file that was loaded, if no name of a column goes on as
a cell of another column does. However the file writes its cells and line ends, the answer has
the rows with the value, each once, and dummies. -/
theorem search_file (h : LoadsFile l e stream t s) (hover : NoOverlap t) (findPad : ℤ → ℤ) :
    ∃ padded, adjPadding l.setup.log l.x l.setup.secretKey t.memory (countTable t.memory) e =
        some padded ∧
      ∀ i c v, t.columnNames[i]? = some c → v ∈ t.cells i → ∃ answer extra i',
        (search l.setup l.codec l.fuel findPad (keyword t c v)).run s.index = .ok answer i' ∧
        answer.Perm (rowsWith t i v ++ extra) ∧
        ∀ d ∈ extra, (keyword t c v, d) ∈ dummies t padded.1 := by
  have ht := h.loadable.table
  obtain ⟨padded, hpadded, hsearch⟩ := search_pairs h.loads findPad
  refine ⟨padded, hpadded, ?_⟩
  intro i c v hname hv
  have hoccurs : Occurs t c v := ⟨i, hname, hv⟩
  obtain ⟨answer, extra, i', hrun, hperm, hextra⟩ := hsearch _ (hoccurs.mem_keys ht)
  rw [filter_memory ht (separates_iff.mpr hover) hname hv] at hperm
  exact ⟨answer, extra, i', hrun, hperm, hextra⟩

theorem search_file_quoted : ∃ (o : OramReadPathEviction.Oram) (s : SealClient),
    OramReadPathEviction.construct.run
      (OramReadPathEviction.blank 1 2 .new ⟨0, fun k => k, 0⟩) = .ok ⟨⟩ o ∧
    (adjDataInFile (RangeSearch.sampleLoader o) ⟨fun k => k, 0, fun k => k, 0⟩ [116]
      [107, 13, 10, 34, 50, 34, 13, 10, 49]).run
        (.fresh (RangeSearch.sampleLoader o) ⟨o, 0⟩) = .ok ⟨⟩ s ∧
    ∃ answer extra i', (search (RangeSearch.sampleLoader o).setup
        (RangeSearch.sampleLoader o).codec (RangeSearch.sampleLoader o).fuel id
        [116, 107, 50]).run s.index = .ok answer i' ∧
      answer.Perm (⟨0, []⟩ :: extra) := by
  obtain ⟨o, hbuild⟩ := OramReadPathEviction.construct_small
  obtain ⟨s, hload, hloads⟩ :=
    RangeSearch.descending_load hbuild ⟨fun k => k, 0, fun k => k, 0⟩
  have hshows : FileOf 44 [[[107]], [[34, 50, 34]], [[49]]]
      [107, 13, 10, 34, 50, 34, 13, 10, 49] := by
    have hlines : linesOf (content [107, 13, 10, 34, 50, 34, 13, 10, 49]) =
        [[107], [34, 50, 34], [49]] := by decide
    rw [FileOf, hlines]
    refine .cons (.last ?_) (.cons (.last ?_) (.cons (.last ?_) .nil)) <;>
      exact cellText_of_notMem (by decide)
  have hvalues : values [[[107]], [[34, 50, 34]], [[49]]] =
      RangeSearch.descending.columnNames :: RangeSearch.descending.rows := by
    have htwo : cellValue {} [34, 50, 34] = [50] := by
      simp [cellValue, CsvReader.trim, unquote, quote, replaceString]
    simp only [values, List.map_cons, List.map_nil, htwo]
    decide
  obtain ⟨read, hread, hdata, hparams⟩ := readCsv_values [107, 13, 10, 34, 50, 34, 13, 10, 49]
  obtain rfl := hread.unique hshows
  have hfile : adjDataInFile (RangeSearch.sampleLoader o) ⟨fun k => k, 0, fun k => k, 0⟩ [116]
      [107, 13, 10, 34, 50, 34, 13, 10, 49] = adjDataIn (RangeSearch.sampleLoader o)
        ⟨fun k => k, 0, fun k => k, 0⟩ RangeSearch.descending :=
    adjDataInFile_eq ⟨hparams, hdata.trans hvalues⟩
  rw [← hfile] at hload
  have hover : NoOverlap RangeSearch.descending := by
    rintro c text hname htext v _ ⟨i, hshort, _⟩
    have hlong : c ++ text = [107] := List.mem_singleton.mp hname
    have hsame : c = [107] := List.mem_singleton.mp (List.mem_of_getElem? hshort)
    rw [hsame] at hlong
    exact htext (by simpa using hlong)
  obtain ⟨_, _, hsearch⟩ := search_file ⟨⟨_, hshows, hvalues⟩, hloads.loadable, hloads.indexable,
    hloads.dictionary, _, hload⟩ hover id
  obtain ⟨answer, extra, i', hrun, hperm, _⟩ := hsearch 0 [107] [50] rfl (by decide)
  exact ⟨o, s, hbuild, hload, answer, extra, i', hrun, hperm⟩

end CsvLoading
