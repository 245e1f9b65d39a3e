import SseSeal.RangeSearch

/-! The keywords of a table. A keyword is the path of the file, the name of a column and a value,
one after another: where a name begins with another one, keywords of the two columns may be
the same, and a search for one of them also finds the rows of the other. -/
namespace KeywordColumns

open Bytes Objects ObjectArchive StateExcept StringCipher OramReadPathEviction OramMemory
open OramAccessController SortedMap Padding PaddedMemory SubOrams Dictionary KeywordIndex
open TableLoading RangeSearch

def Occurs (t : Table) (c v : Str) : Prop := ∃ i, t.columnNames[i]? = some c ∧ v ∈ t.cells i

def keyword (t : Table) (c v : Str) : Str := t.filePath ++ c ++ v

/-- Different pairs of a column and a value have different keywords. -/
def Separates (t : Table) : Prop := ∀ c₁ v₁ c₂ v₂, Occurs t c₁ v₁ → Occurs t c₂ v₂ →
  (c₁, v₁) ≠ (c₂, v₂) → keyword t c₁ v₁ ≠ keyword t c₂ v₂

/-- Where a column has the name of another one followed by some text, no cell of the other one
is that text followed by a cell of the column. -/
def NoOverlap (t : Table) : Prop := ∀ c text, c ++ text ∈ t.columnNames → text ≠ [] →
  ∀ v, Occurs t (c ++ text) v → ¬ Occurs t c (text ++ v)

def RowWith (t : Table) (c v : Str) (d : Document) : Prop :=
  ∃ (i j : ℕ) (row : List Str), t.columnNames[i]? = some c ∧ t.rows[j]? = some row ∧
    row[i]? = some v ∧ d = .ofTokens j row

def dummies (t : Table) (padded : Padded) : Memory := padded.memory.drop t.memory.length

/-- A search for a value in a column returns documents of rows with that value there, and
dummies. -/
def SearchesColumns (l : Loader) (e : Entropy) (t : Table) (s : SealClient) (findPad : ℤ → ℤ) :
    Prop :=
  ∃ padded, adjPadding l.setup.log l.x l.setup.secretKey t.memory (countTable t.memory) e =
      some padded ∧
    ∀ c v, Occurs t c v → ∃ answer i,
      (search l.setup l.codec l.fuel findPad (keyword t c v)).run s.index = .ok answer i ∧
      ∀ d ∈ answer, (keyword t c v, d) ∈ dummies t padded.1 ∨ RowWith t c v d

variable {l : Loader} {e : Entropy} {t : Table} {s : SealClient} {c v w : Str} {d : Document}
  {i j : ℕ}

theorem separates_iff : Separates t ↔ NoOverlap t := by
  constructor
  · intro h c text _ htext v hlong hshort
    refine h c (text ++ v) (c ++ text) v hshort hlong ?_ (by simp [keyword])
    intro heq
    have hname := (Prod.mk.inj heq).1
    exact htext (by simpa using hname)
  · intro h c₁ v₁ c₂ v₂ h₁ h₂ hne heq
    -- one of the two names begins with the other
    have hsame : c₁ ++ v₁ = c₂ ++ v₂ := by simpa [keyword] using heq
    have hname : ∀ {c v}, Occurs t c v → c ∈ t.columnNames := fun ⟨_, hi, _⟩ =>
      List.mem_of_getElem? hi
    rcases List.append_eq_append_iff.mp hsame with ⟨text, rfl, rfl⟩ | ⟨text, rfl, rfl⟩
    · by_cases htext : text = []
      · exact hne (by simp [htext])
      · exact h c₁ text (hname h₂) htext v₂ h₂ h₁
    · by_cases htext : text = []
      · exact hne (by simp [htext])
      · exact h c₂ text (hname h₁) htext v₁ h₁ h₂

theorem cells_getElem? (hfull : ∀ row ∈ t.rows, i < row.length) :
    (t.cells i)[j]? = (t.rows[j]?).bind fun row => row[i]? := by
  rw [Table.cells]
  generalize t.rows = rows at hfull
  induction rows generalizing j with
  | nil => rfl
  | cons row rows ih =>
    have hlt := hfull row List.mem_cons_self
    have hget : row[i]? = some row[i] := List.getElem?_eq_getElem hlt
    rw [List.filterMap_cons, hget]
    cases j with
    | zero => exact hget.symm
    | succ j => exact ih fun row hrow => hfull row (List.mem_cons_of_mem _ hrow)

theorem mem_columnEntries (ht : t.WellFormed) (hi : i < t.columnNames.length) :
    (w, d) ∈ t.columnEntries c (t.cells i) ↔ ∃ (j : ℕ) (row : List Str) (v : Str),
      t.rows[j]? = some row ∧ row[i]? = some v ∧ w = keyword t c v ∧ d = .ofTokens j row := by
  have hfull : ∀ row ∈ t.rows, i < row.length := fun row hrow => hi.trans_le (ht.full row hrow)
  constructor
  · intro hmem
    obtain ⟨⟨⟨v, row⟩, j⟩, hcell, heq⟩ := List.mem_map.mp hmem
    cases heq
    rw [List.mem_zipIdx_iff_getElem?, List.getElem?_zip_eq_some] at hcell
    obtain ⟨hcell, hrow⟩ := hcell
    dsimp only at hcell hrow
    rw [cells_getElem? hfull, hrow] at hcell
    exact ⟨j, row, v, hrow, hcell, rfl, rfl⟩
  · rintro ⟨j, row, v, hrow, hcell, rfl, rfl⟩
    apply List.mem_map.mpr
    refine ⟨((v, row), j), ?_, rfl⟩
    rw [List.mem_zipIdx_iff_getElem?, List.getElem?_zip_eq_some]
    dsimp only
    rw [cells_getElem? hfull, hrow]
    exact ⟨hcell, rfl⟩

theorem mem_memory_iff (ht : t.WellFormed) : (w, d) ∈ t.memory ↔
    ∃ c v, w = keyword t c v ∧ RowWith t c v d := by
  rw [mem_memory]
  constructor
  · rintro ⟨⟨c, i⟩, hcolumn, hmem⟩
    obtain ⟨j, row, v, hrow, hcell, hw, hd⟩ :=
      (mem_columnEntries ht (zipIdx_index hcolumn)).mp hmem
    exact ⟨c, v, hw, i, j, row, List.mem_zipIdx_iff_getElem?.mp hcolumn, hrow, hcell, hd⟩
  · rintro ⟨c, v, hw, i, j, row, hname, hrow, hcell, hd⟩
    have hcolumn : (c, i) ∈ t.columnNames.zipIdx := List.mem_zipIdx_iff_getElem?.mpr hname
    exact ⟨(c, i), hcolumn, (mem_columnEntries ht (zipIdx_index hcolumn)).mpr
      ⟨j, row, v, hrow, hcell, hw, hd⟩⟩

theorem RowWith.occurs (h : RowWith t c v d) : Occurs t c v := by
  obtain ⟨i, j, row, hname, hrow, hcell, _⟩ := h
  exact ⟨i, hname, List.mem_filterMap.mpr ⟨row, List.mem_of_getElem? hrow, hcell⟩⟩

theorem Occurs.mem_keys (ht : t.WellFormed) (h : Occurs t c v) :
    keyword t c v ∈ keys t.memory := by
  obtain ⟨i, hname, hv⟩ := h
  obtain ⟨row, hrow, hcell⟩ := List.mem_filterMap.mp hv
  obtain ⟨j, hj⟩ := List.mem_iff_getElem?.mp hrow
  have hmem : (keyword t c v, Document.ofTokens j row) ∈ t.memory :=
    (mem_memory_iff ht).mpr ⟨c, v, rfl, i, j, row, hname, hj, hcell, rfl⟩
  exact List.mem_map_of_mem hmem

theorem documents_id_lt (ht : t.WellFormed) (hne : t.columnNames ≠ []) {b : Str × Document}
    (hb : b ∈ t.memory) : b.2.id < t.memory.length := by
  have hid := List.mem_map_of_mem (f := Document.id) (memory_documents ht hb)
  rw [documents_id, List.mem_range] at hid
  exact hid.trans_le (rows_le_memory ht hne)

/-- A search answers with the documents that the keyword was paired with, each as often as it
was, and with dummies. -/
theorem search_pairs (h : Loads l e t s) (findPad : ℤ → ℤ) :
    ∃ padded, adjPadding l.setup.log l.x l.setup.secretKey t.memory (countTable t.memory) e =
        some padded ∧
      ∀ w ∈ keys t.memory, ∃ answer extra i,
        (search l.setup l.codec l.fuel findPad w).run s.index = .ok answer i ∧
        answer.Perm ((t.memory.filter fun b => b.1 = w).map Prod.snd ++ extra) ∧
        ∀ d ∈ extra, (w, d) ∈ dummies t padded.1 := by
  obtain ⟨padded, hpadded, hsorted, hlen, hserving⟩ := h.serving
  have hsize := h.indexable.size
  refine ⟨padded, hpadded, ?_⟩
  intro w hw
  obtain ⟨reads, i, hrun, hserving', n, hfst, rfl, hreads⟩ :=
    searchReads_returns hserving hsorted (by omega) findPad hw
  have hblock := reads_eq_filter hsorted.order hfst hreads
  have hperm := l.sort.perm padded.1.memory
  generalize l.sort.sort padded.1.memory = sorted at hblock hperm hserving'
  obtain ⟨added, hadded, _⟩ := (adjPadding_aligned h.indexable.x hpadded).added
  have hdummies : dummies t padded.1 = added := by rw [dummies, hadded, List.drop_left]
  have hids : ((t.memory.filter fun b => b.1 = w).map Prod.snd).filter
      (fun doc => doc.id < sorted.length) = (t.memory.filter fun b => b.1 = w).map Prod.snd := by
    rw [List.filter_eq_self]
    intro d hd
    obtain ⟨b, hb, rfl⟩ := List.mem_map.mp hd
    have hid := documents_id_lt h.loadable.table h.indexable.columns (List.mem_filter.mp hb).1
    have hle : t.memory.length ≤ sorted.length := by
      rw [hperm.length_eq, hadded, List.length_append]
      exact Nat.le_add_right _ _
    simpa using hid.trans_le hle
  refine ⟨_, ((added.filter fun b => b.1 = w).map Prod.snd).filter fun doc =>
    doc.id < sorted.length, i, search_of_reads hrun hblock hserving'.memorySize, ?_, ?_⟩
  · have hdocs := ((hperm.filter fun b => decide (b.1 = w)).map Prod.snd).filter
      fun doc => decide (doc.id < sorted.length)
    rwa [hadded, List.filter_append, List.map_append, List.filter_append, hids] at hdocs
  · intro d hd
    obtain ⟨⟨k, _⟩, hb, rfl⟩ := List.mem_map.mp (List.mem_filter.mp hd).1
    obtain ⟨hmem, hkey⟩ := List.mem_filter.mp hb
    have hk : k = w := by simpa using hkey
    subst hk
    rwa [hdummies]

theorem searchesColumns (hsep : Separates t) (h : Loads l e t s) (findPad : ℤ → ℤ) :
    SearchesColumns l e t s findPad := by
  have ht := h.loadable.table
  obtain ⟨padded, hpadded, hsearch⟩ := search_pairs h findPad
  refine ⟨padded, hpadded, ?_⟩
  intro c v hcv
  obtain ⟨answer, extra, i, hrun, hperm, hdummies⟩ := hsearch (keyword t c v) (hcv.mem_keys ht)
  refine ⟨answer, i, hrun, ?_⟩
  intro d hd
  rcases List.mem_append.mp (hperm.subset hd) with hpaired | hdummy
  · obtain ⟨⟨k, _⟩, hb, rfl⟩ := List.mem_map.mp hpaired
    obtain ⟨hmem, hkey⟩ := List.mem_filter.mp hb
    have hk : k = keyword t c v := by simpa using hkey
    subst hk
    obtain ⟨c', v', hkeyword, hrow⟩ := (mem_memory_iff ht).mp hmem
    by_cases heq : (c, v) = (c', v')
    · cases heq
      exact Or.inr hrow
    · exact absurd hkeyword (hsep c v c' v' hcv hrow.occurs heq)
  · exact Or.inl (hdummies d hdummy)

/-- The keywords of a table tell its columns apart, and each search keeps to its column, if and
only if no name of a column goes on as a cell of another column does. -/
theorem keywords_separate_iff (t : Table) : (Separates t ∧
    ∀ l e s findPad, Loads l e t s → SearchesColumns l e t s findPad) ↔ NoOverlap t := by
  constructor
  · intro h
    exact separates_iff.mp h.1
  · intro h
    have hsep := separates_iff.mpr h
    exact ⟨hsep, fun _ _ _ findPad hloads => searchesColumns hsep hloads findPad⟩

/-- The columns `a` and `a1`, where the keyword `ta11` stands for two pairs. -/
def numbered : Table := ⟨[116], [[97], [97, 49]], [[[49, 49], [53]], [[55], [49]]]⟩

theorem numbered_sizes : 2 * keywordSizes .ideal 2 numbered.memory + 1 = 15 := by decide +kernel

/-- The row with 7 in the column `a` is found under the keyword for 11 in that column, and it is
no dummy. -/
theorem numbered_search_wrong :
    ∃ (o : Oram) (l : Loader) (s : SealClient) (padded : Padded × Dict Str ℕ)
      (answer : List Document) (i : Index) (d : Document), numbered.columnNames.Nodup ∧
      construct.run (blank 1 2 .new ⟨0, fun k => k, 0⟩) = .ok ⟨⟩ o ∧
      l = { sampleLoader o with fuel := 20 } ∧ Loads l ⟨fun k => k, 0, fun k => k, 0⟩ numbered s ∧
      adjPadding l.setup.log l.x l.setup.secretKey numbered.memory (countTable numbered.memory)
        ⟨fun k => k, 0, fun k => k, 0⟩ = some padded ∧
      Occurs numbered [97] [49, 49] ∧ Occurs numbered [97, 49] [49] ∧
      keyword numbered [97] [49, 49] = keyword numbered [97, 49] [49] ∧
      (search l.setup l.codec l.fuel id (keyword numbered [97] [49, 49])).run s.index =
        .ok answer i ∧
      d ∈ answer ∧ ¬ RowWith numbered [97] [49, 49] d ∧
      (keyword numbered [97] [49, 49], d) ∉ dummies numbered padded.1 := by
  obtain ⟨o, hbuild⟩ := construct_small
  have hserves := serves_construct (fun _ => rfl) hbuild
  have halpha : 1 ≤ SubArrays.baseOf .ideal 2 := by decide
  have hbase : SubArrays.baseOf .ideal 2 ≤ 31 := by decide
  have hloadable : Loadable { sampleLoader o with fuel := 20 } numbered := by
    refine ⟨⟨by decide, by decide⟩, sampleKey_length, fun _ _ => hserves, by decide, halpha,
      hbase, ?_⟩
    intro d hd
    have hdocs : ∀ d ∈ numbered.documents, d = ⟨0, [[53]]⟩ ∨ d = ⟨1, [[49]]⟩ := by decide
    rcases hdocs d hd with rfl | rfl
    · exact Short.storable ⟨by decide, by decide, by decide⟩
    · exact Short.storable ⟨by decide, by decide, by decide⟩
  have hindexable : Indexable { sampleLoader o with fuel := 20 } numbered := by
    have hsize : (sampleLoader o).x * keywordSizes (sampleLoader o).setup.log (sampleLoader o).x
        numbered.memory + 1 = 15 := numbered_sizes
    refine ⟨by decide, le_rfl, by rw [hsize]; decide, ?_,
      by rw [hsize]; exact show 15 < 20 by decide⟩
    intro b hb
    have hkeys : ∀ b ∈ numbered.memory, b.1.length ≤ 4 := by decide
    have hlen := hkeys b hb
    rw [Storable, blockBytes]
    omega
  obtain ⟨_, _, _, _, ⟨⟩, s, hrun, _⟩ := adjDataIn_returns hloadable hindexable
    ⟨fun k => k, 0, fun k => k, 0⟩ ⟨o, 0⟩ (fun _ => rfl) hbuild rfl
  have hloads : Loads { sampleLoader o with fuel := 20 } ⟨fun k => k, 0, fun k => k, 0⟩ numbered
      s := ⟨hloadable, hindexable, ⟨1, 2, .new, ⟨0, fun k => k, 0⟩, o, fun _ => rfl, hbuild, rfl⟩,
    _, hrun⟩
  obtain ⟨padded, hpadded, hsearch⟩ := search_pairs hloads id
  obtain ⟨answer, extra, i, hsearch, hperm, _⟩ :=
    hsearch (keyword numbered [97] [49, 49]) (by decide)
  have hpaired : ⟨1, [[49]]⟩ ∈ answer :=
    hperm.symm.subset (List.mem_append_left _ (by decide))
  refine ⟨o, _, s, padded, answer, i, ⟨1, [[49]]⟩, by decide, hbuild, rfl, hloads, hpadded,
    ⟨0, rfl, by decide⟩, ⟨1, rfl, by decide⟩, rfl, hsearch, hpaired, ?_, ?_⟩
  · rintro ⟨i, j, row, hname, hrow, hcell, hd⟩
    have hj : j = 1 := (congrArg Document.id hd).symm
    subst hj
    cases hrow
    have hi : i < 2 := (List.getElem?_eq_some_iff.mp hname).1
    have hi' : i = 0 ∨ i = 1 := by omega
    rcases hi' with rfl | rfl
    · revert hcell
      decide
    · revert hname
      decide
  · have hdummies : (adjPadding .ideal 2 sampleKey numbered.memory (countTable numbered.memory)
        ⟨fun k => k, 0, fun k => k, 0⟩).all fun padded =>
          decide ((keyword numbered [97] [49, 49], ⟨1, [[49]]⟩) ∉ dummies numbered padded.1) := by
      decide +kernel
    change adjPadding .ideal 2 sampleKey numbered.memory (countTable numbered.memory) _ = _
      at hpadded
    rw [hpadded] at hdummies
    simpa only [Option.all_some, decide_eq_true_eq] using hdummies

end KeywordColumns
