import SseSeal.RangeIndex

/-! Loading a table: its cells become keywords, each column is made searchable by ranges, and
the pairs of all columns together go to the keyword index. -/
namespace TableLoading

open Bytes Objects ObjectArchive StateExcept StringCipher SortedMap OramAccessController
open ClientCache OdictClient Padding IndexStrings SubArrays SubOrams KeywordIndex RangeIndex

/-- A CSV file: the names of its columns and the cells below them. -/
structure Table where
  filePath : Str
  columnNames : List Str
  rows : List (List Str)

/-- What the constructor of the client fixes, the oblivious memories that it can make, and the
sort of the standard library. -/
structure Loader where
  setup : Setup
  codec : Codec Node
  newDictionary : Str → Controller
  order : HashOrder
  sort : KeySort
  x : ℕ
  fuel : ℕ
  insertPad : ℤ → ℤ

structure SealClient where
  index : Index
  ranges : Ranges

abbrev SealM := EStateM IndexError SealClient

def onIndex {α : Type} (y : IndexM α) : SealM α :=
  focus SealClient.index (fun i s => { s with index := i }) id y

def onRanges {α : Type} (y : RangeM α) : SealM α :=
  focus SealClient.ranges (fun r s => { s with ranges := r }) id y

def caught (y : SealM PUnit) : SealM PUnit := fun s =>
  match y.run s with
  | .error .invalidArgument s' => .ok ⟨⟩ s'
  | r => r

/-- `GetColumn`, which throws if a row is too short. -/
def Table.getColumn (t : Table) (i : ℕ) : Option (List Str) := t.rows.mapM fun row => row[i]?

def Table.columnEntries (t : Table) (columnName : Str) (dataFrame : List Str) : Memory :=
  (dataFrame.zip t.rows).zipIdx.map fun row =>
    (t.filePath ++ columnName ++ row.1.1, .ofTokens row.2 row.1.2)

/-- The loop of `adj_data_in` over the columns; the result is the memory. -/
def loadColumns (l : Loader) (t : Table) : List (Str × ℕ) → RangeM Memory
  | [] => return []
  | (columnName, i) :: columns => do
    let dataFrame ← orThrow .outOfRange (t.getColumn i)
    let tmp := t.columnEntries columnName dataFrame
    loadColumn l.setup l.sort tmp (t.filePath ++ columnName)
    let memory ← loadColumns l t columns
    return tmp ++ memory

def openDictionary (l : Loader) (filePath : Str) : ClientM PUnit :=
  modify fun c => { c with
    controller := l.newDictionary filePath
    cache := ⟨2 ^ 31 - 1, [], [], l.order, 0⟩ }

/-- `adj_data_in` on the cells that were read from the file. -/
def adjDataIn (l : Loader) (e : Entropy) (t : Table) : SealM PUnit := caught do
  onIndex (onClient (openDictionary l t.filePath))
  onIndex (onClient (initDummyData l.codec))
  let memory ← onRanges (loadColumns l t t.columnNames.zipIdx)
  onIndex (loadMemory l.setup l.codec l.fuel l.insertPad l.sort l.x e t.filePath memory)

def Table.documents (t : Table) : List Document :=
  t.rows.zipIdx.map fun row => .ofTokens row.2 row.1

/-- A table whose columns have different names and whose rows have a cell in each of them. -/
structure Table.WellFormed (t : Table) : Prop where
  distinct : t.columnNames.Nodup
  full : ∀ row ∈ t.rows, t.columnNames.length ≤ row.length

def Table.cells (t : Table) (i : ℕ) : List Str := t.rows.filterMap fun row => row[i]?

def Table.memory (t : Table) : Memory :=
  t.columnNames.zipIdx.flatMap fun column => t.columnEntries column.1 (t.cells column.2)

variable {t : Table} {l : Loader} {e : Entropy} {name : Str} {i : ℕ} {s₀ s : SealClient}
  {r : Ranges}

theorem Table.WellFormed.getColumn (ht : t.WellFormed) (hi : i < t.columnNames.length) :
    t.getColumn i = some (t.cells i) ∧ (t.cells i).length = t.rows.length := by
  have hfull := ht.full
  rw [Table.getColumn, Table.cells]
  generalize t.rows = rows at hfull
  induction rows with
  | nil => exact ⟨rfl, rfl⟩
  | cons row rows ih =>
    have hrow := hfull row List.mem_cons_self
    have hget : row[i]? = some row[i] := List.getElem?_eq_getElem (by omega)
    obtain ⟨hmap, hlen⟩ := ih fun row hrow => hfull row (List.mem_cons_of_mem _ hrow)
    rw [List.mapM_cons, hget, hmap, List.filterMap_cons, hget, List.length_cons,
      List.length_cons, hlen]
    exact ⟨rfl, rfl⟩

theorem columnEntries_documents {dataFrame : List Str}
    (h : dataFrame.length = t.rows.length) (name : Str) :
    (t.columnEntries name dataFrame).map Prod.snd = t.documents := by
  have hrows : t.rows = (dataFrame.zip t.rows).map Prod.snd :=
    (List.map_snd_zip h.ge).symm
  rw [Table.documents]
  conv_rhs => rw [hrows]
  rw [List.zipIdx_map, List.map_map, Table.columnEntries, List.map_map]
  rfl

theorem columnEntries_length {dataFrame : List Str}
    (h : dataFrame.length = t.rows.length) (name : Str) :
    (t.columnEntries name dataFrame).length = t.rows.length := by
  have hdocs := congrArg List.length (columnEntries_documents h name)
  rwa [List.length_map, Table.documents, List.length_map, List.length_zipIdx] at hdocs

structure Loadable (l : Loader) (t : Table) : Prop where
  table : t.WellFormed
  key : 16 ≤ l.setup.secretKey.length
  controllers : ∀ mapKey i, Serves (l.setup.newController mapKey i) fun _ => none
  rows : t.rows ≠ []
  alpha : l.setup.alpha ≤ baseOf l.setup.log t.rows.length
  base : baseOf l.setup.log t.rows.length ≤ 31
  storable : ∀ d ∈ t.documents, Storable (documentCodec.serialize d)

def Columned (l : Loader) (t : Table) (r : Ranges) (column : Str × ℕ) : Prop :=
  RangeIndex.Serving l.setup r (t.filePath ++ column.1)
    (l.sort.sort (t.columnEntries column.1 (t.cells column.2)))

theorem loadColumns_returns (h : Loadable l t) {columns : List (Str × ℕ)}
    (hin : ∀ column ∈ columns, column.2 < t.columnNames.length)
    (hd : (columns.map Prod.fst).Nodup)
    (hnone : ∀ column ∈ columns,
      r.adjOramAccessControllersRange.find? (t.filePath ++ column.1) = none) :
    Returns (loadColumns l t columns) r fun memory r' =>
      memory = columns.flatMap (fun column => t.columnEntries column.1 (t.cells column.2)) ∧
      (∀ column ∈ columns, Columned l t r' column) ∧
      ∀ other ∉ columns.map Prod.fst, SameColumn (t.filePath ++ other) r r' := by
  induction columns generalizing r with
  | nil => exact returns_pure ⟨rfl, by simp, fun _ _ => ⟨rfl, rfl, rfl⟩⟩
  | cons column columns ih =>
    obtain ⟨name, i⟩ := column
    rw [List.map_cons, List.nodup_cons] at hd
    obtain ⟨hcolumn, hlen⟩ := h.table.getColumn (hin _ List.mem_cons_self)
    have hlength := columnEntries_length hlen name
    have hdocs : ∀ b ∈ t.columnEntries name (t.cells i), Storable (documentCodec.serialize b.2) :=
      fun b hb => h.storable b.2 (columnEntries_documents hlen name ▸ List.mem_map_of_mem hb)
    refine (orThrow_returns hcolumn).bind ?_
    intro _ _ hpost
    obtain ⟨rfl, rfl⟩ := hpost
    refine (loadColumn_returns l.sort h.key (h.controllers _) (by rw [hlength]; exact h.alpha)
      (by rw [hlength]; exact h.base) hdocs (hnone _ List.mem_cons_self)).bind ?_
    intro _ r₁ hpost
    obtain ⟨hserving, hother⟩ := hpost
    have hne : ∀ other, other ≠ name → t.filePath ++ other ≠ t.filePath ++ name :=
      fun other hne heq => hne (List.append_cancel_left heq)
    have hfresh : ∀ column ∈ columns,
        r₁.adjOramAccessControllersRange.find? (t.filePath ++ column.1) = none := by
      intro column hcol
      have hname : column.1 ≠ name := by
        rintro rfl
        have hmem := List.mem_map_of_mem (f := Prod.fst) hcol
        exact hd.1 hmem
      rw [(hother _ (hne _ hname)).controllers]
      exact hnone column (List.mem_cons_of_mem _ hcol)
    refine (ih (fun column hcol => hin column (List.mem_cons_of_mem _ hcol)) hd.2 hfresh).bind ?_
    intro memory r₂ hpost
    obtain ⟨rfl, hcolumns, hothers⟩ := hpost
    refine returns_pure ⟨rfl, ?_, ?_⟩
    · intro column hcol
      rcases List.mem_cons.mp hcol with rfl | hcol
      · exact hserving.congr (hothers name hd.1)
      · exact hcolumns column hcol
    · intro other hmem
      rw [List.map_cons, List.mem_cons, not_or] at hmem
      obtain ⟨h₁, h₂, h₃⟩ := hother _ (hne other hmem.1)
      obtain ⟨h₄, h₅, h₆⟩ := hothers other hmem.2
      exact ⟨h₄.trans h₁, h₅.trans h₂, h₆.trans h₃⟩

theorem onIndex_ranges {α : Type} (y : IndexM α) (s : SealClient) :
    (∃ a s', (onIndex y).run s = .ok a s' ∧ s'.ranges = s.ranges) ∨
      ∃ e s', (onIndex y).run s = .error e s' ∧ s'.ranges = s.ranges := by
  change (∃ a s', onIndex y s = .ok a s' ∧ _) ∨ ∃ e s', onIndex y s = .error e s' ∧ _
  simp only [onIndex, focus]
  cases hrun : y.run s.index with
  | ok a i => exact Or.inl ⟨a, _, rfl, rfl⟩
  | error e i => exact Or.inr ⟨e, _, rfl, rfl⟩

theorem onIndex_run {α : Type} {y : IndexM α} {a : α} {i' : Index}
    (h : y.run s.index = .ok a i') : (onIndex y).run s = .ok a { s with index := i' } := by
  change onIndex y s = _
  simp only [onIndex, focus, h]

theorem onRanges_run {α : Type} {y : RangeM α} {a : α} {r' : Ranges}
    (h : y.run s.ranges = .ok a r') : (onRanges y).run s = .ok a { s with ranges := r' } := by
  change onRanges y s = _
  simp only [onRanges, focus, h]

theorem onClient_not_invalid {α : Type} {y : ClientM α} {s s' : SealClient}
    (h : (onIndex (onClient y)).run s = .error .invalidArgument s') : False := by
  change onIndex (onClient y) s = _ at h
  simp only [onIndex, focus, onClient, EStateM.run] at h
  split at h
  · cases h
  · rename_i heq
    split at heq
    · cases heq
    · cases heq
      cases h

theorem zipIdx_index {α : Type} {l : List α} {column : α × ℕ} (h : column ∈ l.zipIdx) :
    column.2 < l.length := by
  have := List.snd_lt_of_mem_zipIdx h
  omega

theorem caught_returns {y : SealM PUnit} {post : PUnit → SealClient → Prop}
    (h : Returns y s post) : Returns (caught y) s post := by
  obtain ⟨a, s', hrun, ha⟩ := h
  refine ⟨a, s', ?_, ha⟩
  change caught y s = _
  simp only [caught, hrun]

/-- A program that begins with one on the client gets past it, or fails with an error that is
not caught. -/
theorem onClient_bind {α β : Type} {y : ClientM α} {f : α → SealM β} {s₀ s : SealClient}
    (h : (∃ b, (onIndex (onClient y) >>= f).run s₀ = .ok b s) ∨
      (onIndex (onClient y) >>= f).run s₀ = .error .invalidArgument s) :
    ∃ a s₁, s₁.ranges = s₀.ranges ∧
      ((∃ b, (f a).run s₁ = .ok b s) ∨ (f a).run s₁ = .error .invalidArgument s) := by
  rcases onIndex_ranges (onClient y) s₀ with ⟨a, s₁, hrun, hranges⟩ | ⟨e, s₁, hrun, _⟩
  · refine ⟨a, s₁, hranges, ?_⟩
    simpa only [run_bind_ok hrun] using h
  · rw [run_bind_error hrun] at h
    rcases h with ⟨b, hb⟩ | herr
    · cases hb
    · cases herr
      exact absurd hrun onClient_not_invalid

theorem caught_ok {y : SealM PUnit} {a : PUnit} (h : (caught y).run s₀ = .ok a s) :
    (∃ b, y.run s₀ = .ok b s) ∨ y.run s₀ = .error .invalidArgument s := by
  change caught y s₀ = _ at h
  simp only [caught] at h
  split at h
  · rename_i heq
    cases h
    exact Or.inr heq
  · exact Or.inl ⟨_, h⟩

theorem adjDataIn_columned (h : Loadable l t)
    (hfresh : s₀.ranges.adjOramAccessControllersRange = .empty)
    (hload : (adjDataIn l e t).run s₀ = .ok ⟨⟩ s) :
    ∀ column ∈ t.columnNames.zipIdx, Columned l t s.ranges column := by
  obtain ⟨_, s₁, hr₁, hrest⟩ := onClient_bind (caught_ok hload)
  obtain ⟨_, s₂, hr₂, hrest⟩ := onClient_bind hrest
  have hcolumns : Returns (loadColumns l t t.columnNames.zipIdx) s₂.ranges fun memory r' =>
      memory = t.memory ∧ ∀ column ∈ t.columnNames.zipIdx, Columned l t r' column := by
    refine (loadColumns_returns h (fun column hc => zipIdx_index hc) ?_ ?_).imp ?_
    · rw [List.zipIdx_map_fst]
      exact h.table.distinct
    · intro column _
      rw [hr₂, hr₁, hfresh]
      rfl
    · intro memory r' hpost
      obtain ⟨hmemory, hserved, _⟩ := hpost
      exact ⟨hmemory, hserved⟩
  obtain ⟨memory, s₃, hrun, r', ⟨_, hserved⟩, rfl⟩ := hcolumns.focus SealClient.ranges
    (fun r s => { s with ranges := r }) (id : IndexError → IndexError)
  have hrest : (∃ b, (onIndex (loadMemory l.setup l.codec l.fuel l.insertPad l.sort l.x e
      t.filePath memory)).run { s₂ with ranges := r' } = .ok b s) ∨
      (onIndex (loadMemory l.setup l.codec l.fuel l.insertPad l.sort l.x e
        t.filePath memory)).run { s₂ with ranges := r' } = .error .invalidArgument s := by
    simpa only [onRanges, run_bind_ok hrun] using hrest
  have hranges : s.ranges = r' := by
    rcases onIndex_ranges (loadMemory l.setup l.codec l.fuel l.insertPad l.sort l.x e
      t.filePath memory) { s₂ with ranges := r' } with ⟨_, s₄, hrun₄, h₄⟩ | ⟨_, s₄, hrun₄, h₄⟩
    · rw [hrun₄] at hrest
      rcases hrest with ⟨_, hs⟩ | hs
      · cases hs
        exact h₄
      · cases hs
    · rw [hrun₄] at hrest
      rcases hrest with ⟨_, hs⟩ | hs
      · cases hs
      · cases hs
        exact h₄
  rw [hranges]
  exact hserved

/-- The client that the constructor makes. It has no oblivious memory yet; the controller here
is never used. -/
def SealClient.fresh (l : Loader) (k : Controller) : SealClient where
  index :=
    { client :=
        { rootId := 0, rootPos := -1, nodeCount := 1, readCount := 0, writeCount := 0
          cache := ⟨2 ^ 31 - 1, [], [], l.order, 0⟩, controller := k
          secretKey := l.setup.secretKey }
      adjOramAccessControllers := [], memorySize := 0 }
  ranges := ⟨0, .empty, .empty, .empty⟩

structure Indexable (l : Loader) (t : Table) : Prop where
  columns : t.columnNames ≠ []
  x : 2 ≤ l.x
  size : l.x * keywordSizes l.setup.log l.x t.memory + 1 < 2 ^ 31
  storable : ∀ b ∈ t.memory, Storable b.1
  fuel : l.x * keywordSizes l.setup.log l.x t.memory + 1 < l.fuel

theorem mem_memory {b : Str × Document} : b ∈ t.memory ↔
    ∃ column ∈ t.columnNames.zipIdx, b ∈ t.columnEntries column.1 (t.cells column.2) :=
  List.mem_flatMap

theorem memory_documents (ht : t.WellFormed) {b : Str × Document} (hb : b ∈ t.memory) :
    b.2 ∈ t.documents := by
  obtain ⟨column, hcolumn, hb⟩ := mem_memory.mp hb
  have hlen := (ht.getColumn (zipIdx_index hcolumn)).2
  rw [← columnEntries_documents hlen column.1]
  exact List.mem_map_of_mem hb

theorem rows_le_memory (ht : t.WellFormed) (hne : t.columnNames ≠ []) :
    t.rows.length ≤ t.memory.length := by
  obtain ⟨name, names, hnames⟩ := List.exists_cons_of_ne_nil hne
  have hi : 0 < t.columnNames.length := by rw [hnames]; exact Nat.succ_pos _
  have hlen := columnEntries_length (ht.getColumn hi).2 name
  rw [Table.memory, hnames, List.zipIdx_cons, List.flatMap_cons, List.length_append, hlen]
  exact Nat.le_add_right _ _

section Load

variable {bucketSize blockNumber : ℕ} {storage : OramReadPathEviction.Storage}
  {randGen : OramReadPathEviction.RandomForOram} {o : OramReadPathEviction.Oram} {k : Controller}

theorem adjDataIn_run (h : Loadable l t) {e : Entropy} (k : Controller)
    (hdict : l.newDictionary t.filePath = ⟨o, 0⟩) {i : Index}
    (hindex : (do
      onClient (initDummyData l.codec)
      loadMemory l.setup l.codec l.fuel l.insertPad l.sort l.x e t.filePath t.memory).run
        ⟨Client.fresh l.setup.secretKey l.order o, [], 0⟩ = .ok ⟨⟩ i) :
    ∃ r', (loadColumns l t t.columnNames.zipIdx).run (SealClient.fresh l k).ranges =
        .ok t.memory r' ∧
      (adjDataIn l e t).run (.fresh l k) = .ok ⟨⟩ ⟨i, r'⟩ ∧
      ∀ column ∈ t.columnNames.zipIdx, Columned l t r' column := by
  obtain ⟨_, i₁, hdummy, hmem⟩ := bind_ok hindex
  have hcolumns : Returns (loadColumns l t t.columnNames.zipIdx) (SealClient.fresh l k).ranges
      fun memory r' => memory = t.memory ∧
        ∀ column ∈ t.columnNames.zipIdx, Columned l t r' column := by
    refine (loadColumns_returns h (fun column hc => zipIdx_index hc) ?_ fun _ _ => rfl).imp ?_
    · rw [List.zipIdx_map_fst]
      exact h.table.distinct
    · intro memory r' hpost
      obtain ⟨hmemory, hserved, _⟩ := hpost
      exact ⟨hmemory, hserved⟩
  have hopen : (onIndex (onClient (openDictionary l t.filePath))).run (.fresh l k) =
      .ok ⟨⟩ ⟨⟨Client.fresh l.setup.secretKey l.order o, [], 0⟩,
        (SealClient.fresh l k).ranges⟩ := by
    have hclient : Client.fresh l.setup.secretKey l.order o =
        { (SealClient.fresh l k).index.client with controller := l.newDictionary t.filePath } := by
      rw [hdict]
      rfl
    rw [hclient]
    rfl
  obtain ⟨memory, r', hload, rfl, hserved⟩ := hcolumns
  refine ⟨r', hload, ?_, hserved⟩
  obtain ⟨⟨⟩, s, hrun, rfl⟩ : Returns (adjDataIn l e t) (.fresh l k) fun _ s => s = ⟨i, r'⟩ := by
    refine caught_returns ⟨⟨⟩, ⟨i, r'⟩, ?_, rfl⟩
    rw [run_bind_ok hopen, run_bind_ok (onIndex_run hdummy),
      run_bind_ok (onRanges_run (s := ⟨i₁, _⟩) hload)]
    exact onIndex_run hmem
  exact hrun

theorem Loadable.memory_ne_nil (h : Loadable l t) (hi : Indexable l t) : t.memory ≠ [] := by
  have hrows := List.length_pos_iff.mpr h.rows
  exact List.length_pos_iff.mp (hrows.trans_le (rows_le_memory h.table hi.columns))

theorem Loadable.storable_memory (h : Loadable l t) (hi : Indexable l t) :
    ∀ b ∈ t.memory, Storable b.1 ∧ Storable (documentCodec.serialize b.2) :=
  fun b hb => ⟨hi.storable b hb, h.storable _ (memory_documents h.table hb)⟩

theorem Loadable.alpha_le (h : Loadable l t) (hi : Indexable l t) :
    l.setup.alpha ≤ baseOf l.setup.log (l.x * keywordSizes l.setup.log l.x t.memory + 1) := by
  have hmemory := rows_le_memory h.table hi.columns
  have hsizes := length_le_keywordSizes l.setup.log (show 1 < l.x from hi.x) t.memory
  have hdouble := Nat.mul_le_mul_right (keywordSizes l.setup.log l.x t.memory) hi.x
  exact h.alpha.trans (baseOf_mono l.setup.log (by omega))

/-- A load on a fresh client returns. The columns and the keywords are then served. -/
theorem adjDataIn_returns (h : Loadable l t) (hi : Indexable l t) (e : Entropy) (k : Controller)
    (hs : ∀ k, storage.fails k = false)
    (hbuild : OramReadPathEviction.construct.run
      (OramReadPathEviction.blank bucketSize blockNumber storage randGen) = .ok ⟨⟩ o)
    (hdict : l.newDictionary t.filePath = ⟨o, 0⟩) :
    ∃ padded, adjPadding l.setup.log l.x l.setup.secretKey t.memory (countTable t.memory) e =
        some padded ∧
      Sorted t.memory (l.sort.sort padded.1.memory) padded.2 ∧
      (l.sort.sort padded.1.memory).length = l.x * keywordSizes l.setup.log l.x t.memory + 1 ∧
      Returns (adjDataIn l e t) (.fresh l k) fun _ s =>
        KeywordIndex.Serving l.setup l.codec l.fuel (l.sort.sort padded.1.memory) padded.2
          s.index ∧
        ∀ column ∈ t.columnNames.zipIdx, Columned l t s.ranges column := by
  obtain ⟨padded, hpadded, hsorted, hlen, ⟨⟩, i, hrun, hserving⟩ := load_returns l.codec
    l.insertPad l.sort e hi.x hi.size (h.alpha_le hi) (h.storable_memory hi) hs hbuild l.order h.key
    (h.controllers t.filePath) hi.fuel
  obtain ⟨r', _, hload, hserved⟩ := adjDataIn_run h k hdict hrun
  exact ⟨padded, hpadded, hsorted, hlen, ⟨⟩, ⟨i, r'⟩, hload, hserving, hserved⟩

end Load

/-- A load of a table on a fresh client whose storage calls all succeed. -/
structure Loads (l : Loader) (e : Entropy) (t : Table) (s : SealClient) : Prop where
  loadable : Loadable l t
  indexable : Indexable l t
  dictionary : ∃ bucketSize blockNumber storage randGen o, (∀ k, storage.fails k = false) ∧
    OramReadPathEviction.construct.run
      (OramReadPathEviction.blank bucketSize blockNumber storage randGen) = .ok ⟨⟩ o ∧
    l.newDictionary t.filePath = ⟨o, 0⟩
  run : ∃ k, (adjDataIn l e t).run (.fresh l k) = .ok ⟨⟩ s

theorem Loads.serving (h : Loads l e t s) :
    ∃ padded, adjPadding l.setup.log l.x l.setup.secretKey t.memory (countTable t.memory) e =
        some padded ∧
      Sorted t.memory (l.sort.sort padded.1.memory) padded.2 ∧
      (l.sort.sort padded.1.memory).length = l.x * keywordSizes l.setup.log l.x t.memory + 1 ∧
      Serving l.setup l.codec l.fuel (l.sort.sort padded.1.memory) padded.2 s.index := by
  obtain ⟨_, _, _, _, o, hs, hbuild, hdict⟩ := h.dictionary
  obtain ⟨k, hrun⟩ := h.run
  obtain ⟨padded, hpadded, hsorted, hlen, _, s', hrun', hserving, _⟩ :=
    adjDataIn_returns h.loadable h.indexable e k hs hbuild hdict
  cases hrun.symm.trans hrun'
  exact ⟨padded, hpadded, hsorted, hlen, hserving⟩

end TableLoading
