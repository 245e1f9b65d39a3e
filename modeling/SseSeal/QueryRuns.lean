import SseSeal.KeywordColumns
import SseSeal.RangeSearch

/-! Queries on a loaded table. They read through oblivious memories whose blocks move, and
through a dictionary that is written back, but no query can tell which ones came before it:
each is answered as on the table that was just loaded. -/
namespace QueryRuns

open Bytes Objects ObjectArchive StateExcept StringCipher SortedMap OramAccessController
open ClientCache OdictClient ClientTree Dictionary Padding PaddedMemory IndexStrings SubArrays
open SubOrams KeywordIndex RangeTree RangeIndex TableLoading

inductive Query where
  | keyword (w : Str)
  | range (columnName : Str) (lower upper : ℕ)

def Query.run (l : Loader) (t : Table) (findPad : ℤ → ℤ) : Query → SealM (List Document)
  | .keyword w => onIndex (search l.setup l.codec l.fuel findPad w)
  | .range columnName lower upper => onRanges
      (searchRange l.setup (t.filePath ++ columnName) (toDecimal lower) (toDecimal upper))

def runQueries (l : Loader) (t : Table) (findPad : ℤ → ℤ) :
    List Query → SealM (List (List Document))
  | [] => return []
  | q :: queries => do
    let answer ← q.run l t findPad
    let answers ← runQueries l t findPad queries
    return answer :: answers

variable {p : Setup} {codec : Codec Node} {fuel : ℕ} {memory sorted : Memory}
  {count : Dict Str ℕ} {w : Str} {findPad : ℤ → ℤ}

def keywordAnswer (sorted : Memory) (w : Str) : List Document :=
  ((sorted.filter fun b => b.1 = w).map Prod.snd).filter fun doc => doc.id < sorted.length

theorem search_present {s : Index} (h : KeywordIndex.Serving p codec fuel sorted count s)
    (hsorted : Sorted memory sorted count) (hlen : sorted.length < 2 ^ 31)
    (hw : w ∈ keys memory) :
    Returns (search p codec fuel findPad w) s fun answer s' =>
      KeywordIndex.Serving p codec fuel sorted count s' ∧ answer = keywordAnswer sorted w := by
  obtain ⟨reads, s', hrun, hserving, n, hfst, rfl, hreads⟩ :=
    searchReads_returns h hsorted hlen findPad hw
  have hblock := reads_eq_filter hsorted.order hfst hreads
  exact ⟨_, s', search_of_reads hrun hblock hserving.memorySize, hserving, rfl⟩

/-- A keyword that no pair has is not in the dictionary, and no document is read for it. -/
theorem searchReads_absent {s : Index} (h : KeywordIndex.Serving p codec fuel sorted count s)
    (hw : w ∉ keys sorted) :
    Returns (searchReads p codec fuel findPad w) s fun reads s' =>
      reads = [] ∧ KeywordIndex.Serving p codec fuel sorted count s' := by
  obtain ⟨nodes, V, hidle, hins, hf, hindexes⟩ := h.client
  have hdata : firstData nodes w = none := by
    rw [firstData, Option.map_eq_none_iff, List.find?_eq_none]
    intro n hn hkey
    have hkey : n.key = w := by simpa using hkey
    refine hw ?_
    rw [← hindexes.key, ← hkey]
    exact List.mem_map_of_mem hn
  apply (onClient_returns (find_returns hidle hins hf findPad w)).bind
  intro found s' hpost
  obtain ⟨c', ⟨hfinds, ⟨V', hidle'⟩, _⟩, rfl⟩ := hpost
  rw [hdata] at hfinds
  obtain rfl : found = none := hfinds
  exact returns_pure ⟨rfl, ⟨nodes, V', hidle', hins, hf, hindexes⟩, h.documents,
    h.memorySize⟩

theorem search_absent {s : Index} (h : KeywordIndex.Serving p codec fuel sorted count s)
    (hw : w ∉ keys sorted) :
    Returns (search p codec fuel findPad w) s fun answer s' =>
      KeywordIndex.Serving p codec fuel sorted count s' ∧ answer = keywordAnswer sorted w := by
  have hnone : keywordAnswer sorted w = [] := by
    have hfilter : sorted.filter (fun b => b.1 = w) = [] := by
      rw [List.filter_eq_nil_iff]
      intro b hb hkey
      have hkey : b.1 = w := by simpa using hkey
      exact hw (hkey ▸ List.mem_map_of_mem hb)
    rw [keywordAnswer, hfilter]
    rfl
  apply (searchReads_absent h hw).bind
  intro reads s' hpost
  obtain ⟨rfl, hserving⟩ := hpost
  apply returns_get.bind
  intro _ s'' hget
  obtain ⟨rfl, rfl⟩ := hget
  exact returns_pure ⟨hserving, hnone.symm⟩

/-- The answer to a range: the documents in the slots that the tree of the column gives. -/
def rangeAnswer (r : Ranges) (sorted : Memory) (mapKey : Str) (lower upper : ℤ) : List Document :=
  match r.rootT1.find? mapKey with
  | none => []
  | some root =>
    match singleRangeCover root.2 root.1 lower upper with
    | none => []
    | some d => (docSubscripts d.kwdDocPairs lower upper).filterMap fun i =>
      (sorted.map Prod.snd)[i]?

section Keeps

variable {γ : Type} {f : Ranges → γ} {mapKey : Str}

theorem searchRangeHelper_keeps (h : ∀ ks r, f (setControllers mapKey ks r) = f r)
    (positions : List ℕ) : Keeps f (searchRangeHelper p mapKey positions) := by
  induction positions with
  | nil => exact keeps_pure _
  | cons i positions ih =>
    refine keeps_get.bind fun _ => (keeps_focus _ _ _ h _).bind fun _ => ?_
    exact ih.bind fun _ => keeps_pure _

theorem stoi_keeps (s : Str) : Keeps f (stoi s) := by
  refine (keeps_orThrow _ _).bind fun n => ?_
  split
  · exact keeps_pure _
  · exact keeps_throw _

theorem searchRange_keeps (h : ∀ ks r, f (setControllers (cString mapKey) ks r) = f r)
    (lower upper : Str) : Keeps f (searchRange p mapKey lower upper) :=
  (stoi_keeps _).bind fun _ => (stoi_keeps _).bind fun _ => keeps_get.bind fun _ =>
    (keeps_orThrow _ _).bind fun _ => (keeps_orThrow _ _).bind fun _ =>
      searchRangeHelper_keeps h _

theorem searchRange_sameColumn {r r' : Ranges} {lower upper other : Str} {answer : List Document}
    (hne : other ≠ cString mapKey)
    (hrun : (searchRange p mapKey lower upper).run r = .ok answer r') : SameColumn other r r' := by
  have hkeep : Keeps (fun r : Ranges => r.adjOramAccessControllersRange.find? other)
      (searchRange p mapKey lower upper) :=
    searchRange_keeps (fun _ _ => Dict.find?_alter_of_ne hne) lower upper
  have hroot : Keeps Ranges.rootT1 (searchRange p mapKey lower upper) :=
    searchRange_keeps (fun _ _ => rfl) lower upper
  have hsize : Keeps Ranges.kwdSize (searchRange p mapKey lower upper) :=
    searchRange_keeps (fun _ _ => rfl) lower upper
  constructor
  · rw [hroot _ _ _ hrun]
  · exact hkeep _ _ _ hrun
  · rw [hsize _ _ _ hrun]

end Keeps

theorem filterMap_of_forall₂ {docs answer : List Document} {positions : List ℕ}
    (h : List.Forall₂ (fun i d => docs[i]? = some d) positions answer) :
    answer = positions.filterMap fun i => docs[i]? := by
  induction h with
  | nil => rfl
  | cons hi _ ih => rw [List.filterMap_cons, hi, ← ih]

theorem searchRange_answer {r : Ranges} {mapKey : Str}
    (h : RangeIndex.Serving p r mapKey sorted) (hids : ∀ item ∈ sorted, item.2.id < sorted.length)
    (hnul : cString mapKey = mapKey) {lower upper : ℕ} (hlower : 1 ≤ lower)
    (hle : lower ≤ upper) (hupper : upper ≤ 8) :
    Returns (searchRange p mapKey (toDecimal lower) (toDecimal upper)) r fun answer r' =>
      RangeIndex.Serving p r' mapKey sorted ∧
        answer = rangeAnswer r sorted mapKey lower upper := by
  obtain ⟨root, hroot, hcover⟩ := h.root
  obtain ⟨d, hd, hfull⟩ := hcover lower upper (by omega) (by omega) (by omega)
  have hpos : ∀ i ∈ docSubscripts d.kwdDocPairs lower upper, i < sorted.length := by
    intro i hi
    rw [docSubscripts_eq_flatMap, List.mem_flatMap] at hi
    obtain ⟨key, hkey, hi⟩ := hi
    obtain ⟨hlo, hhi⟩ := of_decide_eq_true (List.mem_filter.mp hkey).2
    rw [hfull key hlo hhi] at hi
    obtain ⟨pair, hpair, rfl⟩ := List.mem_map.mp hi
    obtain ⟨item, hitem, rfl⟩ := List.mem_map.mp (List.mem_filter.mp hpair).1
    exact hids item hitem
  rw [searchRange, cString_toDecimal, cString_toDecimal, hnul]
  apply (stoi_toDecimal (by omega)).bind
  intro _ r hpost
  obtain ⟨rfl, rfl⟩ := hpost
  apply (stoi_toDecimal (by omega)).bind
  intro _ r hpost
  obtain ⟨rfl, rfl⟩ := hpost
  apply returns_get.bind
  intro _ r hpost
  obtain ⟨rfl, rfl⟩ := hpost
  apply (orThrow_returns hroot).bind
  intro _ r hpost
  obtain ⟨rfl, rfl⟩ := hpost
  apply (orThrow_returns hd).bind
  intro _ r hpost
  obtain ⟨rfl, rfl⟩ := hpost
  apply (searchRangeHelper_returns h hpos).imp
  intro answer r' hpost
  obtain ⟨hserving, hread⟩ := hpost
  refine ⟨hserving, ?_⟩
  simp only [rangeAnswer, hroot, hd]
  exact filterMap_of_forall₂ hread

structure Answering (l : Loader) (t : Table) (sorted : Memory) (count : Dict Str ℕ)
    (loaded s : SealClient) : Prop where
  keywords : KeywordIndex.Serving l.setup l.codec l.fuel sorted count s.index
  columns : ∀ column ∈ t.columnNames.zipIdx, Columned l t s.ranges column
  rootT1 : s.ranges.rootT1 = loaded.ranges.rootT1

def columnMemory (l : Loader) (t : Table) (columnName : Str) (i : ℕ) : Memory :=
  l.sort.sort (t.columnEntries columnName (t.cells i))

def Query.answer (l : Loader) (t : Table) (sorted : Memory) (loaded : SealClient) :
    Query → List Document
  | .keyword w => keywordAnswer sorted w
  | .range columnName lower upper =>
    rangeAnswer loaded.ranges (columnMemory l t columnName (t.columnNames.idxOf columnName))
      (t.filePath ++ columnName) lower upper

/-- A keyword of the table or one that the padded memory does not have; a range of a column that
can be searched, with bounds that the tree has. -/
def Query.Valid (t : Table) (padded : Memory) : Query → Prop
  | .keyword w => w ∈ keys t.memory ∨ w ∉ keys padded
  | .range columnName lower upper =>
    RangeSearch.Searchable t columnName (t.columnNames.idxOf columnName) ∧
      1 ≤ lower ∧ lower ≤ upper ∧ upper ≤ 8

variable {l : Loader} {t : Table} {loaded s : SealClient} {q : Query}

theorem cString_eq {s : Str} (h : 0 ∉ s) : cString s = s := by
  apply List.takeWhile_eq_self_iff.mpr
  intro b hb
  rw [bne_iff_ne]
  intro hzero
  exact h (hzero ▸ hb)

theorem columnMemory_id_lt (ht : t.WellFormed) {columnName : Str} {i : ℕ}
    (hi : i < t.columnNames.length) :
    ∀ item ∈ columnMemory l t columnName i,
      item.2.id < (columnMemory l t columnName i).length := by
  have hperm := l.sort.perm (t.columnEntries columnName (t.cells i))
  have hlen := (ht.getColumn hi).2
  intro item hitem
  have hdoc : item.2 ∈ t.documents := by
    rw [← columnEntries_documents hlen columnName]
    exact List.mem_map_of_mem (hperm.subset hitem)
  have hid := List.mem_map_of_mem (f := Document.id) hdoc
  rw [RangeSearch.documents_id, List.mem_range] at hid
  rwa [columnMemory, hperm.length_eq, columnEntries_length hlen]

theorem index_of_column (ht : t.WellFormed) {column : Str × ℕ}
    (h : column ∈ t.columnNames.zipIdx) : column.2 = t.columnNames.idxOf column.1 := by
  obtain ⟨hlt, hget⟩ := List.getElem?_eq_some_iff.mp (List.mem_zipIdx_iff_getElem?.mp h)
  rw [← hget, ht.distinct.idxOf_getElem]

/-- A query of a served table returns its answer, and the table is served as before. -/
theorem Answering.query {padded : Memory} (h : Answering l t sorted count loaded s)
    (hsorted : Sorted t.memory sorted count) (hperm : sorted.Perm padded)
    (hlen : sorted.length < 2 ^ 31) (ht : t.WellFormed) (findPad : ℤ → ℤ)
    (hq : q.Valid t padded) :
    Returns (q.run l t findPad) s fun answer s' =>
      answer = q.answer l t sorted loaded ∧ Answering l t sorted count loaded s' := by
  cases q with
  | keyword w =>
    have hsearch : Returns (search l.setup l.codec l.fuel findPad w) s.index
        fun answer i => KeywordIndex.Serving l.setup l.codec l.fuel sorted count i ∧
          answer = keywordAnswer sorted w := by
      rcases hq with hw | hw
      · exact search_present h.keywords hsorted hlen hw
      · refine search_absent h.keywords ?_
        intro hin
        exact hw ((hperm.map Prod.fst).subset hin)
    obtain ⟨answer, i, hrun, hserving, rfl⟩ := hsearch
    exact ⟨_, _, onIndex_run hrun, rfl, hserving, h.columns, h.rootT1⟩
  | range columnName lower upper =>
    obtain ⟨hsearchable, hlower, hle, hupper⟩ := hq
    have hi : t.columnNames.idxOf columnName < t.columnNames.length :=
      (List.getElem?_eq_some_iff.mp hsearchable.column).1
    have hcolumn : (columnName, t.columnNames.idxOf columnName) ∈ t.columnNames.zipIdx :=
      List.mem_zipIdx_iff_getElem?.mpr hsearchable.column
    have hcstring := cString_eq hsearchable.nul
    obtain ⟨answer, r, hrun, hserving, hanswer⟩ := searchRange_answer (h.columns _ hcolumn)
      (columnMemory_id_lt ht hi) hcstring hlower hle hupper
    have hroot : Keeps Ranges.rootT1 (searchRange l.setup (t.filePath ++ columnName)
        (toDecimal lower) (toDecimal upper)) := searchRange_keeps (fun _ _ => rfl) _ _
    refine ⟨_, _, onRanges_run hrun, ?_, h.keywords, ?_, ?_⟩
    · rw [hanswer, Query.answer, rangeAnswer, rangeAnswer, h.rootT1]
      rfl
    · intro column hin
      by_cases heq : column.1 = columnName
      · have hsame : column = (columnName, t.columnNames.idxOf columnName) :=
          Prod.ext heq (heq ▸ index_of_column ht hin)
        rw [hsame]
        exact hserving
      · refine (h.columns column hin).congr (searchRange_sameColumn ?_ hrun)
        rw [hcstring]
        exact fun hsame => heq (List.append_cancel_left hsame)
    · exact (hroot _ _ _ hrun).trans h.rootT1

theorem Answering.queries {padded : Memory} (h : Answering l t sorted count loaded s)
    (hsorted : Sorted t.memory sorted count) (hperm : sorted.Perm padded)
    (hlen : sorted.length < 2 ^ 31) (ht : t.WellFormed) (findPad : ℤ → ℤ)
    {queries : List Query} (hq : ∀ q ∈ queries, q.Valid t padded) :
    Returns (runQueries l t findPad queries) s fun answers s' =>
      answers = queries.map (Query.answer l t sorted loaded) ∧
        Answering l t sorted count loaded s' := by
  induction queries generalizing s with
  | nil => exact returns_pure ⟨rfl, h⟩
  | cons q queries ih =>
    apply (h.query hsorted hperm hlen ht findPad (hq q List.mem_cons_self)).bind
    intro answer s₁ hpost
    obtain ⟨rfl, h₁⟩ := hpost
    apply (ih h₁ fun q hin => hq q (List.mem_cons_of_mem _ hin)).bind
    intro answers s₂ hpost
    obtain ⟨rfl, h₂⟩ := hpost
    exact returns_pure ⟨rfl, h₂⟩

/-- In any sequence of queries on a loaded table, each one returns what it returns right after the
load: no query sees those before it. -/
theorem queries_independent {e : Entropy} (h : Loads l e t s) (findPad : ℤ → ℤ) :
    ∃ padded, adjPadding l.setup.log l.x l.setup.secretKey t.memory (countTable t.memory) e =
        some padded ∧
      ∀ queries : List Query, (∀ q ∈ queries, q.Valid t padded.1.memory) →
        ∃ answers s', (runQueries l t findPad queries).run s = .ok answers s' ∧
          answers.length = queries.length ∧
          ∀ (k : ℕ) (q : Query), queries[k]? = some q → ∃ answer s₁,
            (q.run l t findPad).run s = .ok answer s₁ ∧ answers[k]? = some answer := by
  obtain ⟨_, _, _, _, o, hs, hbuild, hdict⟩ := h.dictionary
  obtain ⟨k, hrun⟩ := h.run
  obtain ⟨padded, hpadded, hsorted, hlen, _, s', hrun', hserving, hcolumns⟩ :=
    adjDataIn_returns h.loadable h.indexable e k hs hbuild hdict
  cases hrun.symm.trans hrun'
  have hsize := h.indexable.size
  have hperm := l.sort.perm padded.1.memory
  have hstart : Answering l t (l.sort.sort padded.1.memory) padded.2 s s :=
    ⟨hserving, hcolumns, rfl⟩
  refine ⟨padded, hpadded, ?_⟩
  intro queries hvalid
  obtain ⟨answers, s', hqueries, rfl, _⟩ := hstart.queries hsorted hperm (by omega)
    h.loadable.table findPad hvalid
  refine ⟨_, s', hqueries, List.length_map _, ?_⟩
  intro k q hk
  obtain ⟨answer, s₁, hquery, rfl, _⟩ := hstart.query hsorted hperm (by omega)
    h.loadable.table findPad (hvalid q (List.mem_of_getElem? hk))
  refine ⟨_, s₁, hquery, ?_⟩
  rw [List.getElem?_map, hk]
  rfl

theorem queries_independent_repeated :
    ∃ (o : OramReadPathEviction.Oram) (s : SealClient) (answers : List (List Document))
      (s' : SealClient),
      OramReadPathEviction.construct.run
        (OramReadPathEviction.blank 1 2 .new ⟨0, fun k => k, 0⟩) = .ok ⟨⟩ o ∧
      (adjDataIn (RangeSearch.sampleLoader o) ⟨fun k => k, 0, fun k => k, 0⟩
        RangeSearch.descending).run (.fresh (RangeSearch.sampleLoader o) ⟨o, 0⟩) = .ok ⟨⟩ s ∧
      (runQueries (RangeSearch.sampleLoader o) RangeSearch.descending id
        [.keyword [116, 107, 50], .range [107] 1 2, .keyword [116, 107, 50]]).run s =
        .ok answers s' ∧
      answers.length = 3 ∧ answers[2]? = answers[0]? := by
  obtain ⟨o, hbuild⟩ := OramReadPathEviction.construct_small
  obtain ⟨s, hload, hloads⟩ :=
    RangeSearch.descending_load hbuild ⟨fun k => k, 0, fun k => k, 0⟩
  obtain ⟨padded, _, hqueries⟩ := queries_independent hloads id
  have hvalid : ∀ q ∈ [Query.keyword [116, 107, 50], .range [107] 1 2,
      .keyword [116, 107, 50]], q.Valid RangeSearch.descending padded.1.memory := by
    have hkeyword : Query.Valid RangeSearch.descending padded.1.memory
        (.keyword [116, 107, 50]) := Or.inl (by decide)
    have hrange : Query.Valid RangeSearch.descending padded.1.memory (.range [107] 1 2) := by
      refine ⟨⟨rfl, ?_, ?_⟩, ?_⟩ <;> decide
    simp [hkeyword, hrange]
  obtain ⟨answers, s', hrun, hlen, heach⟩ := hqueries _ hvalid
  obtain ⟨first, s₁, hfirst, hat⟩ := heach 0 _ rfl
  obtain ⟨last, s₂, hlast, hat'⟩ := heach 2 _ rfl
  cases hfirst.symm.trans hlast
  exact ⟨o, s, answers, s', hbuild, hload, hrun, hlen, hat'.trans hat.symm⟩

end QueryRuns
