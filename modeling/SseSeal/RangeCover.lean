import SseSeal.RangeTree
import Mathlib.Data.Int.Range
import Mathlib.Data.List.Sort

/-! What `single_range_cover` answers on the tree of a range: for any query, a node that has
exactly the ids of the values that the tree and the query share. -/
namespace RangeCover

open Bytes SortedMap RangeTree

/-- `single_range_cover` on the tree that is built for a range and has its parents. -/
def coverOf (memory : List (Str × ℕ)) (context : Str) (lhs rhs : ℤ) (counter : ℕ) (lo hi : ℤ) :
    Option RangeNode :=
  let built := buildTreeT1 memory context lhs rhs counter
  singleRangeCover (addInternalNodesForTreeT1 built.1 built.2).parents built.1 lo hi

theorem flatMap_eq_of_sorted {α : Type*} {l₁ l₂ : List ℤ} {g : ℤ → List α}
    (h₁ : l₁.Pairwise (· < ·)) (h₂ : l₂.Pairwise (· < ·))
    (h : ∀ a, g a ≠ [] → (a ∈ l₁ ↔ a ∈ l₂)) : l₁.flatMap g = l₂.flatMap g := by
  have hdrop : ∀ l : List ℤ, l.flatMap g = (l.filter fun a => g a ≠ []).flatMap g := by
    intro l
    induction l with
    | nil => rfl
    | cons a l ih =>
      by_cases ha : g a = []
      · rw [List.flatMap_cons, ha, List.nil_append, List.filter_cons_of_neg (by simpa using ha), ih]
      · rw [List.flatMap_cons, List.filter_cons_of_pos (by simpa using ha), List.flatMap_cons, ih]
  have hkept : (l₁.filter fun a => g a ≠ []) = l₂.filter fun a => g a ≠ [] := by
    apply (h₁.filter _).eq_of_mem_iff (h₂.filter _)
    intro a
    simp only [List.mem_filter, decide_eq_true_eq]
    exact and_congr_left fun ha => h a ha
  rw [hdrop l₁, hdrop l₂, hkept]

theorem range_sorted (m n : ℤ) : (Int.range m n).Pairwise (· < ·) := by
  rw [Int.range, List.pairwise_map]
  exact List.pairwise_lt_range.imp fun h => by omega

variable {f : ℤ → List ℕ} {l r lo hi : ℤ} {d : RangeNode}

theorem docSubscripts_eq (h : ∀ v, lo ≤ v → v ≤ hi →
      docs d.kwdDocPairs v = if l ≤ v ∧ v ≤ r then f v else []) :
    docSubscripts d.kwdDocPairs lo hi =
      ((Int.range l (r + 1)).filter fun v => lo ≤ v ∧ v ≤ hi).flatMap f := by
  have hvalues : ((Int.range l (r + 1)).filter fun v => lo ≤ v ∧ v ≤ hi).flatMap f =
      ((Int.range l (r + 1)).filter fun v => lo ≤ v ∧ v ≤ hi).flatMap (docs d.kwdDocPairs) := by
    apply List.flatMap_congr
    intro v hv
    obtain ⟨hin, hrange⟩ := List.mem_filter.mp hv
    obtain ⟨hlo, hhi⟩ := of_decide_eq_true hrange
    rw [h v hlo hhi, if_pos ⟨(Int.mem_range_iff.mp hin).1,
      Int.lt_add_one_iff.mp (Int.mem_range_iff.mp hin).2⟩]
  rw [docSubscripts_eq_flatMap, hvalues]
  apply flatMap_eq_of_sorted (d.kwdDocPairs.sorted.filter _) ((range_sorted l (r + 1)).filter _)
  intro v hv
  have hkey : v ∈ d.kwdDocPairs.entries.map Prod.fst := by
    by_contra hnone
    rw [docs, Dict.find?_eq_none.mpr hnone] at hv
    exact hv rfl
  simp only [List.mem_filter, decide_eq_true_eq, Int.mem_range_iff, Int.lt_add_one_iff]
  constructor
  · rintro ⟨_, hlo, hhi⟩
    rw [h v hlo hhi] at hv
    exact ⟨(ite_ne_right_iff.mp hv).1, hlo, hhi⟩
  · rintro ⟨_, hrange⟩
    exact ⟨hkey, hrange⟩

end RangeCover
