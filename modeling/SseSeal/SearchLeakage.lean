import SseSeal.RangeSearch

/-! What the document phase of a search shows: the number of accesses to the sub-ORAMs is the
power of `x` to which the count of the keyword is padded, and one more. -/
namespace SearchLeakage

open Bytes ComputedLog Objects StateExcept OramReadPathEviction OramMemory OramAccessController
open SortedMap Padding PaddedMemory SortedBlocks SubOrams Dictionary KeywordIndex TableLoading
open RangeSearch

def subAccesses (i : Index) : ℕ := accessCount i.adjOramAccessControllers

section Accesses

variable {p : Setup} {codec : Codec Node} {fuel : ℕ} {findPad : ℤ → ℤ} {i i₁ : Index}
  {reads : List (ℕ × Document)} {w : Str}

theorem readSubscripts_accesses {size : ℕ} {l : List ℕ}
    (h : (readSubscripts p size l).run i = .ok reads i₁) :
    subAccesses i₁ = subAccesses i + reads.length := by
  induction l generalizing i reads with
  | nil =>
    cases h
    rfl
  | cons j l ih =>
    obtain ⟨d, i₂, hread, hrest⟩ := bind_ok h
    obtain ⟨rest, i₃, hrest, hpure⟩ := bind_ok hrest
    cases hpure
    have hone : subAccesses i₂ = subAccesses i + 1 := by
      change onSubOrams (readSubscript p size j) i = _ at hread
      simp only [onSubOrams, focus] at hread
      split at hread
      · rename_i hrun
        cases hread
        exact readSubscript_accesses hrun
      · cases hread
    rw [ih hrest, hone, List.length_cons]
    omega

theorem subscripts_state {data : Str} {l : List ℕ}
    (h : (subscripts data).run i = .ok l i₁) : i₁ = i := by
  obtain ⟨first, i₂, h₂, hrest⟩ := bind_ok h
  obtain ⟨iw, i₃, h₃, hrest⟩ := bind_ok hrest
  obtain ⟨second, i₄, h₄, hrest⟩ := bind_ok hrest
  obtain ⟨countw, i₅, h₅, hrest⟩ := bind_ok hrest
  obtain ⟨n, i₆, h₆, hpure⟩ := bind_ok hrest
  cases hpure
  rw [(orThrow_ok h₆).2, (orThrow_ok h₅).2, (orThrow_ok h₄).2, (orThrow_ok h₃).2,
    (orThrow_ok h₂).2]

theorem searchReads_accesses (h : (searchReads p codec fuel findPad w).run i = .ok reads i₁) :
    subAccesses i₁ = subAccesses i + reads.length := by
  obtain ⟨node, i₂, hfind, hrest⟩ := bind_ok h
  have hsame : subAccesses i₂ = subAccesses i := by
    change onClient (OdictClient.find codec fuel findPad w) i = _ at hfind
    simp only [onClient, focus] at hfind
    split at hfind
    · cases hfind
      rfl
    · cases hfind
  cases node with
  | none =>
    cases hrest
    exact hsame
  | some node =>
    obtain ⟨l, i₃, hsub, hrest⟩ := bind_ok hrest
    obtain ⟨_, _, hget, hrest⟩ := bind_ok hrest
    cases hget
    rw [readSubscripts_accesses hrest, subscripts_state hsub, hsame]

end Accesses

/-- The second loop of the padding drew no keyword that is this one. -/
def Unfilled (l : Loader) (e : Entropy) (t : Table) (w : Str) : Prop :=
  ∀ padded, adjPadding l.setup.log l.x l.setup.secretKey t.memory (countTable t.memory) e =
      some padded →
    ∀ b ∈ fillers l.setup.log l.x t.memory padded.1, b.1 ≠ w

/-- The class of a keyword: the exponent of the power that its count is padded to. -/
def classOf (log : CeilLog) (x : ℕ) (memory : Memory) (w : Str) : ℕ :=
  log.value x ((keys memory).count w)

variable {l l₁ l₂ : Loader} {e e₁ e₂ : Entropy} {t t₁ t₂ : Table} {s s₁ s₂ : SealClient}
  {w w₁ w₂ : Str}

/-- The fillers have 16 bytes. -/
theorem unfilled_of_length (hx : 1 < l.x) (hw : w.length ≠ 16) : Unfilled l e t w := by
  intro padded hpadded b hb heq
  exact hw (heq ▸ (adjPadding_fillers hx hpadded).2 b hb)

/-- The accesses of a search for a keyword are a function of its class. -/
theorem search_returns (h : Loads l e t s) (hw : w ∈ keys t.memory) (hfree : Unfilled l e t w)
    (findPad : ℤ → ℤ) :
    ∃ answer i, (search l.setup l.codec l.fuel findPad w).run s.index = .ok answer i ∧
      subAccesses i = subAccesses s.index + (l.x ^ classOf l.setup.log l.x t.memory w + 1) := by
  obtain ⟨padded, hpadded, hsorted, hlen, hserving⟩ := h.serving
  have hsize := h.indexable.size
  obtain ⟨reads, i, hrun, _, n, hfst, hn, _⟩ :=
    searchReads_returns hserving hsorted (by omega) findPad hw
  have hoccurs := adjPadding_occurs h.indexable.x hpadded hw (hfree padded hpadded)
  have hcount : (keys (l.sort.sort padded.1.memory)).count w =
      (keys padded.1.memory).count w := ((l.sort.perm _).map Prod.fst).count_eq w
  have hreads : reads.length = l.x ^ classOf l.setup.log l.x t.memory w + 1 := by
    have hlength := congrArg List.length hfst
    rw [List.length_map, List.length_range', hn, hcount, hoccurs] at hlength
    exact hlength
  refine ⟨(reads.map Prod.snd).filter fun doc => doc.id < i.memorySize, i, ?_, ?_⟩
  · rw [search, run_bind_ok hrun, run_bind_ok (run_get i), run_pure]
  · rw [searchReads_accesses hrun, hreads]

/-- Searches for two keywords of one class, in any two loaded tables, make equally many
accesses to the sub-ORAMs: one more than the power of `x` that the class stands for. -/
theorem search_leaks_class (h₁ : Loads l₁ e₁ t₁ s₁) (h₂ : Loads l₂ e₂ t₂ s₂) (hx : l₁.x = l₂.x)
    (hw₁ : w₁ ∈ keys t₁.memory) (hw₂ : w₂ ∈ keys t₂.memory) (hfree₁ : Unfilled l₁ e₁ t₁ w₁)
    (hfree₂ : Unfilled l₂ e₂ t₂ w₂)
    (hclass : classOf l₁.setup.log l₁.x t₁.memory w₁ = classOf l₂.setup.log l₂.x t₂.memory w₂)
    (findPad : ℤ → ℤ) :
    ∃ answer₁ i₁ answer₂ i₂,
      (search l₁.setup l₁.codec l₁.fuel findPad w₁).run s₁.index = .ok answer₁ i₁ ∧
      (search l₂.setup l₂.codec l₂.fuel findPad w₂).run s₂.index = .ok answer₂ i₂ ∧
      subAccesses i₁ = subAccesses s₁.index +
        (l₁.x ^ classOf l₁.setup.log l₁.x t₁.memory w₁ + 1) ∧
      subAccesses i₂ = subAccesses s₂.index +
        (l₁.x ^ classOf l₁.setup.log l₁.x t₁.memory w₁ + 1) := by
  obtain ⟨answer₁, i₁, hrun₁, hcount₁⟩ := search_returns h₁ hw₁ hfree₁ findPad
  obtain ⟨answer₂, i₂, hrun₂, hcount₂⟩ := search_returns h₂ hw₂ hfree₂ findPad
  rw [← hclass, ← hx] at hcount₂
  exact ⟨answer₁, i₁, answer₂, i₂, hrun₁, hrun₂, hcount₁, hcount₂⟩

theorem search_leaks_class_once :
    ∃ (o : Oram) (s₁ s₂ : SealClient),
      construct.run (blank 1 2 .new ⟨0, fun k => k, 0⟩) = .ok ⟨⟩ o ∧
      Loads (sampleLoader o) ⟨fun k => k, 0, fun k => k, 0⟩ descending s₁ ∧
      Loads (sampleLoader o) ⟨fun _ => 5, 0, fun _ => 7, 0⟩ descending s₂ ∧
      ∃ answer₁ i₁ answer₂ i₂,
        (search (sampleSetup o) ObjectArchive.nodeCodec 10 id [116, 107, 50]).run s₁.index =
          .ok answer₁ i₁ ∧
        (search (sampleSetup o) ObjectArchive.nodeCodec 10 id [116, 107, 49]).run s₂.index =
          .ok answer₂ i₂ ∧
        subAccesses i₁ = subAccesses s₁.index + 2 ∧
        subAccesses i₂ = subAccesses s₂.index + 2 := by
  obtain ⟨o, hbuild⟩ := construct_small
  obtain ⟨s₁, _, h₁⟩ := descending_load hbuild ⟨fun k => k, 0, fun k => k, 0⟩
  obtain ⟨s₂, _, h₂⟩ := descending_load hbuild ⟨fun _ => 5, 0, fun _ => 7, 0⟩
  have hx : 2 ≤ (sampleLoader o).x := h₁.indexable.x
  have hw₁ : [116, 107, 50] ∈ keys descending.memory := by decide
  have hw₂ : [116, 107, 49] ∈ keys descending.memory := by decide
  have hsame : classOf .ideal 2 descending.memory [116, 107, 50] =
      classOf .ideal 2 descending.memory [116, 107, 49] := by decide +kernel
  obtain ⟨answer₁, i₁, answer₂, i₂, hrun₁, hrun₂, hcount₁, hcount₂⟩ :=
    search_leaks_class h₁ h₂ rfl hw₁ hw₂ (unfilled_of_length hx (by decide))
      (unfilled_of_length hx (by decide)) hsame id
  have hclass : (sampleLoader o).x ^ classOf (sampleLoader o).setup.log (sampleLoader o).x
      descending.memory [116, 107, 50] + 1 = 2 := by
    change 2 ^ classOf .ideal 2 descending.memory [116, 107, 50] + 1 = 2
    decide +kernel
  rw [hclass] at hcount₁ hcount₂
  exact ⟨o, s₁, s₂, hbuild, h₁, h₂, answer₁, i₁, answer₂, i₂, hrun₁, hrun₂, hcount₁, hcount₂⟩

end SearchLeakage
