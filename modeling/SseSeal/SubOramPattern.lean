import SseSeal.QueryRuns
import SseSeal.SearchLeakage

/-! Which sub-ORAMs a search turns to. The sub-ORAM of an entry is read off a permutation that is
drawn once, so every search for a keyword is spread over the sub-ORAMs in the same way. -/
namespace SubOramPattern

open Bytes Objects StateExcept OramAccessController OdictClient SortedBlocks SortedMap Padding
open PaddedMemory SubArrays SubOrams KeywordIndex TableLoading SearchLeakage QueryRuns

def accessesTo (ks : List Controller) (k : ℕ) : ℕ := (ks[k]?).elim 0 Controller.accesses

def subOramOf (p : Setup) (size i : ℕ) : Option ℕ :=
  (slot (prp p size) (baseOf p.log size) p.alpha i).map Prod.fst

def entriesIn (p : Setup) (sorted : Memory) (w : Str) (k : ℕ) : ℕ :=
  (List.range' (rank w (keys sorted)) ((keys sorted).count w)).countP fun i =>
    subOramOf p sorted.length i = some k

variable {p : Setup} {codec : Codec Node} {fuel size i k : ℕ} {findPad : ℤ → ℤ}
  {ks ks' : List Controller} {d : Document} {s s' : Index} {reads : List (ℕ × Document)} {w : Str}
  {memory sorted : Memory} {count : Dict Str ℕ}

theorem onSubOram_accessesTo {α : Type} {x : ControllerM α} {a : α}
    (hx : ∀ k k', x.run k = .ok a k' → k'.accesses = k.accesses + 1)
    (h : (onSubOram i x).run ks = .ok a ks') (k : ℕ) :
    accessesTo ks' k = accessesTo ks k + if i = k then 1 else 0 := by
  change onSubOram i x ks = _ at h
  rw [onSubOram] at h
  split at h
  · cases h
  rename_i controller hcontroller
  split at h
  · rename_i controller' hrun
    cases h
    have hlt := (List.getElem?_eq_some_iff.mp hcontroller).1
    by_cases hik : i = k
    · subst hik
      rw [accessesTo, accessesTo, List.getElem?_set_self hlt, hcontroller, if_pos rfl]
      exact hx _ _ hrun
    · rw [accessesTo, accessesTo, List.getElem?_set_ne hik, if_neg hik, Nat.add_zero]
  · cases h

theorem readSubscript_accessesTo (h : (readSubscript p size i).run ks = .ok d ks') (k : ℕ) :
    accessesTo ks' k = accessesTo ks k + if subOramOf p size i = some k then 1 else 0 := by
  obtain ⟨bits, ks₀, hbits, hrest⟩ := bind_ok h
  obtain ⟨res, ks₁, hread, hrest⟩ := bind_ok hrest
  obtain ⟨plain, ks₂, hdec, hdoc⟩ := bind_ok hrest
  obtain ⟨hslot, rfl⟩ := orThrow_ok hbits
  have hcount := onSubOram_accessesTo (fun _ _ hrun => issue_accesses hrun) hread k
  have hsub : subOramOf p size i = some bits.1 := by
    rw [subOramOf, hslot]
    rfl
  rw [(orThrow_ok hdoc).2, (orThrow_ok hdec).2, hcount, hsub]
  simp only [Option.some.injEq]

theorem readSubscripts_accessesTo {l : List ℕ}
    (h : (readSubscripts p size l).run s = .ok reads s') (k : ℕ) :
    accessesTo s'.adjOramAccessControllers k = accessesTo s.adjOramAccessControllers k +
      l.countP fun i => subOramOf p size i = some k := by
  induction l generalizing s reads with
  | nil =>
    cases h
    rfl
  | cons i l ih =>
    obtain ⟨d, s₁, hread, hrest⟩ := bind_ok h
    obtain ⟨rest, s₂, hrest, hpure⟩ := bind_ok hrest
    cases hpure
    have hone : accessesTo s₁.adjOramAccessControllers k =
        accessesTo s.adjOramAccessControllers k +
          if subOramOf p size i = some k then 1 else 0 := by
      change onSubOrams (readSubscript p size i) s = _ at hread
      simp only [onSubOrams, focus] at hread
      split at hread
      · rename_i hrun
        cases hread
        exact readSubscript_accessesTo hrun k
      · cases hread
    rw [ih hrest, hone, List.countP_cons]
    simp only [decide_eq_true_eq]
    omega

theorem readSubscripts_fst {l : List ℕ} (h : (readSubscripts p size l).run s = .ok reads s') :
    reads.map Prod.fst = l := by
  induction l generalizing s reads with
  | nil =>
    cases h
    rfl
  | cons i l ih =>
    obtain ⟨d, s₁, hread, hrest⟩ := bind_ok h
    obtain ⟨rest, s₂, hrest, hpure⟩ := bind_ok hrest
    cases hpure
    rw [List.map_cons, ih hrest]

theorem searchReads_accessesTo
    (h : (searchReads p codec fuel findPad w).run s = .ok reads s') (k : ℕ) :
    accessesTo s'.adjOramAccessControllers k = accessesTo s.adjOramAccessControllers k +
      (reads.map Prod.fst).countP fun i => subOramOf p s.memorySize i = some k := by
  obtain ⟨node, s₁, hfind, hrest⟩ := bind_ok h
  obtain ⟨c, rfl⟩ : ∃ c, s₁ = { s with client := c } := by
    change onClient (OdictClient.find codec fuel findPad w) s = _ at hfind
    simp only [onClient, focus] at hfind
    split at hfind
    · cases hfind
      exact ⟨_, rfl⟩
    · cases hfind
  cases node with
  | none =>
    cases hrest
    rfl
  | some node =>
    obtain ⟨l, s₂, hsub, hrest⟩ := bind_ok hrest
    obtain rfl := subscripts_state hsub
    obtain ⟨_, _, hget, hrest⟩ := bind_ok hrest
    cases hget
    rw [readSubscripts_accessesTo hrest, readSubscripts_fst hrest]

theorem search_accessesTo (h : KeywordIndex.Serving p codec fuel sorted count s)
    (hsorted : Sorted memory sorted count) (hlen : sorted.length < 2 ^ 31) (findPad : ℤ → ℤ)
    (hw : w ∈ keys memory ∨ w ∉ keys sorted) :
    Returns (search p codec fuel findPad w) s fun _ s' => ∀ k,
      accessesTo s'.adjOramAccessControllers k =
        accessesTo s.adjOramAccessControllers k + entriesIn p sorted w k := by
  have hreads : Returns (searchReads p codec fuel findPad w) s fun reads _ =>
      reads.map Prod.fst = List.range' (rank w (keys sorted)) ((keys sorted).count w) := by
    rcases hw with hw | hw
    · apply (searchReads_returns h hsorted hlen findPad hw).imp
      intro reads s' hpost
      obtain ⟨_, n, hfst, rfl, _⟩ := hpost
      exact hfst
    · apply (searchReads_absent h hw).imp
      intro reads s' hpost
      rw [hpost.1, List.count_eq_zero_of_not_mem hw]
      rfl
  obtain ⟨reads, s₁, hrun, hfst⟩ := hreads
  rw [search]
  apply (returns_of_ok hrun).bind
  intro _ _ hpost
  obtain ⟨rfl, rfl⟩ := hpost
  apply returns_get.bind
  intro _ _ hget
  obtain ⟨rfl, rfl⟩ := hget
  apply returns_pure
  intro k
  rw [searchReads_accessesTo hrun, hfst, h.memorySize]
  rfl

/-- After any queries on a loaded table, a search for a keyword adds the same number of accesses
to each sub-ORAM: those that watch the sub-ORAMs tell when a search is repeated. -/
theorem searches_show_pattern {l : Loader} {t : Table} {e : Entropy} {s : SealClient}
    (h : Loads l e t s) (findPad : ℤ → ℤ) :
    ∃ padded, adjPadding l.setup.log l.x l.setup.secretKey t.memory (countTable t.memory) e =
        some padded ∧
      ∀ queries : List Query, (∀ q ∈ queries, q.Valid t padded.1.memory) →
        ∀ w : Str, w ∈ keys t.memory ∨ w ∉ keys padded.1.memory →
          ∃ answers s₁ answer s₂, (runQueries l t findPad queries).run s = .ok answers s₁ ∧
            ((Query.keyword w).run l t findPad).run s₁ = .ok answer s₂ ∧
            ∀ k, accessesTo s₂.index.adjOramAccessControllers k =
              accessesTo s₁.index.adjOramAccessControllers k +
                entriesIn l.setup (l.sort.sort padded.1.memory) w k := by
  obtain ⟨_, _, _, _, o, hs, hbuild, hdict⟩ := h.dictionary
  obtain ⟨k, hrun⟩ := h.run
  obtain ⟨padded, hpadded, hsorted, hlen, _, s', hrun', hserving, hcolumns⟩ :=
    adjDataIn_returns h.loadable h.indexable e k hs hbuild hdict
  cases hrun.symm.trans hrun'
  have hsize := h.indexable.size
  have hperm := l.sort.perm padded.1.memory
  have hstart : Answering l t (l.sort.sort padded.1.memory) padded.2 s s :=
    ⟨hserving, hcolumns, rfl⟩
  refine ⟨padded, hpadded, ?_⟩
  intro queries hvalid w hw
  obtain ⟨answers, s₁, hqueries, _, hafter⟩ := hstart.queries hsorted hperm (by omega)
    h.loadable.table findPad hvalid
  have hkeyword : w ∈ keys t.memory ∨ w ∉ keys (l.sort.sort padded.1.memory) := by
    refine hw.imp_right ?_
    intro hnot hin
    exact hnot ((hperm.map Prod.fst).subset hin)
  obtain ⟨answer, i, hsearch, hcounts⟩ :=
    search_accessesTo hafter.keywords hsorted (by omega) findPad hkeyword
  exact ⟨answers, s₁, answer, _, hqueries, onIndex_run hsearch, hcounts⟩

theorem searches_show_pattern_repeated :
    ∃ (o : OramReadPathEviction.Oram) (s : SealClient) (first second : List (List Document))
      (s₁ s₂ : SealClient) (a₁ a₂ : List Document) (t₁ t₂ : SealClient),
      OramReadPathEviction.construct.run
        (OramReadPathEviction.blank 1 2 .new ⟨0, fun k => k, 0⟩) = .ok ⟨⟩ o ∧
      (adjDataIn (RangeSearch.sampleLoader o) ⟨fun k => k, 0, fun k => k, 0⟩
        RangeSearch.descending).run (.fresh (RangeSearch.sampleLoader o) ⟨o, 0⟩) = .ok ⟨⟩ s ∧
      (runQueries (RangeSearch.sampleLoader o) RangeSearch.descending id []).run s =
        .ok first s₁ ∧
      ((Query.keyword [116, 107, 50]).run (RangeSearch.sampleLoader o) RangeSearch.descending
        id).run s₁ = .ok a₁ t₁ ∧
      (runQueries (RangeSearch.sampleLoader o) RangeSearch.descending id
        [.range [107] 1 2, .keyword [116, 107, 50]]).run s = .ok second s₂ ∧
      ((Query.keyword [116, 107, 50]).run (RangeSearch.sampleLoader o) RangeSearch.descending
        id).run s₂ = .ok a₂ t₂ ∧
      ∀ k, accessesTo t₁.index.adjOramAccessControllers k +
          accessesTo s₂.index.adjOramAccessControllers k =
        accessesTo t₂.index.adjOramAccessControllers k +
          accessesTo s₁.index.adjOramAccessControllers k := by
  obtain ⟨o, hbuild⟩ := OramReadPathEviction.construct_small
  obtain ⟨s, hload, hloads⟩ :=
    RangeSearch.descending_load hbuild ⟨fun k => k, 0, fun k => k, 0⟩
  obtain ⟨padded, _, hsearches⟩ := searches_show_pattern hloads id
  have hvalid : ∀ q ∈ [Query.range [107] 1 2, .keyword [116, 107, 50]],
      q.Valid RangeSearch.descending padded.1.memory := by
    have hkeyword : Query.Valid RangeSearch.descending padded.1.memory
        (.keyword [116, 107, 50]) := Or.inl (by decide)
    have hrange : Query.Valid RangeSearch.descending padded.1.memory (.range [107] 1 2) := by
      refine ⟨⟨rfl, ?_, ?_⟩, ?_⟩ <;> decide
    simp [hkeyword, hrange]
  obtain ⟨first, s₁, a₁, t₁, hfirst, hsearch₁, hcounts₁⟩ :=
    hsearches [] (by simp) [116, 107, 50] (Or.inl (by decide))
  obtain ⟨second, s₂, a₂, t₂, hsecond, hsearch₂, hcounts₂⟩ :=
    hsearches _ hvalid [116, 107, 50] (Or.inl (by decide))
  refine ⟨o, s, first, second, s₁, s₂, a₁, a₂, t₁, t₂, hbuild, hload, hfirst, hsearch₁, hsecond,
    hsearch₂, ?_⟩
  intro k
  rw [hcounts₁ k, hcounts₂ k]
  omega

end SubOramPattern
