import Mathlib.Data.Finset.Image
import Mathlib.Data.Nat.Log
import Mathlib.Tactic.Ring

/-! The complete binary tree of a given number of levels, its buckets numbered in
heap order: the path to a leaf, and when two paths meet. -/
namespace PathTree

def bucketAt (levels leaf level : ℕ) : ℕ := 2 ^ level - 1 + leaf / 2 ^ (levels - level - 1)

def path (levels leaf : ℕ) : Finset ℕ := (Finset.range levels).image (bucketAt levels leaf)

variable {levels a b l m : ℕ}

theorem bucketAt_ge : 2 ^ l - 1 ≤ bucketAt levels a l := Nat.le_add_right _ _

theorem pow_leaves (hl : l < levels) : 2 ^ (levels - 1) = 2 ^ (levels - l - 1) * 2 ^ l := by
  rw [← pow_add]
  congr 1
  omega

theorem bucketAt_lt_next (ha : a < 2 ^ (levels - 1)) (hl : l < levels) :
    bucketAt levels a l < 2 ^ (l + 1) - 1 := by
  have hdiv : a / 2 ^ (levels - l - 1) < 2 ^ l :=
    Nat.div_lt_of_lt_mul (pow_leaves hl ▸ ha)
  have hpos : 0 < 2 ^ l := Nat.two_pow_pos l
  rw [bucketAt, pow_succ]
  omega

theorem bucketAt_lt (ha : a < 2 ^ (levels - 1)) (hl : l < levels) :
    bucketAt levels a l < 2 ^ levels - 1 := by
  have hn := bucketAt_lt_next ha hl
  have hp : 2 ^ (l + 1) ≤ 2 ^ levels := Nat.pow_le_pow_right (by omega) hl
  omega

theorem log_bucketAt (ha : a < 2 ^ (levels - 1)) (hl : l < levels) :
    Nat.log 2 (bucketAt levels a l + 1) = l := by
  have hlow : 2 ^ l - 1 ≤ bucketAt levels a l := bucketAt_ge
  have hhigh := bucketAt_lt_next ha hl
  apply Nat.log_eq_of_pow_le_of_lt_pow
  · omega
  · omega

theorem level_eq (ha : a < 2 ^ (levels - 1)) (hb : b < 2 ^ (levels - 1))
    (hl : l < levels) (hm : m < levels) (h : bucketAt levels a l = bucketAt levels b m) :
    l = m := by
  rw [← log_bucketAt ha hl, h, log_bucketAt hb hm]

def parent (p : ℕ) : ℕ := (p - 1) / 2

theorem bucketAt_root (ha : a < 2 ^ (levels - 1)) : bucketAt levels a 0 = 0 := by
  simp [bucketAt, Nat.div_eq_of_lt ha]

theorem parent_bucketAt (hl : l + 1 < levels) :
    parent (bucketAt levels a (l + 1)) = bucketAt levels a l := by
  have hshift : levels - l - 1 = levels - (l + 1) - 1 + 1 := by omega
  have hhalf : a / 2 ^ (levels - l - 1) = a / 2 ^ (levels - (l + 1) - 1) / 2 := by
    rw [Nat.div_div_eq_div_mul, ← pow_succ, ← hshift]
  have hpos : 0 < 2 ^ l := Nat.two_pow_pos l
  rw [parent, bucketAt, bucketAt, hhalf, pow_succ]
  generalize a / 2 ^ (levels - (l + 1) - 1) = q
  omega

/-- A path from the root is the chain of the parents of its deepest bucket. -/
theorem bucketAt_ancestor (k : ℕ) (hl : l + k < levels) :
    parent^[k] (bucketAt levels a (l + k)) = bucketAt levels a l := by
  induction k with
  | zero => rfl
  | succ k ih =>
    have hlast : l + k + 1 < levels := hl
    rw [Function.iterate_succ_apply, ← Nat.add_assoc, parent_bucketAt hlast]
    exact ih (Nat.lt_of_succ_lt hlast)

theorem bucketAt_shared {j : ℕ} (hj : j ≤ l) (hl : l < levels)
    (h : bucketAt levels a l = bucketAt levels b l) :
    bucketAt levels a j = bucketAt levels b j := by
  obtain ⟨k, rfl⟩ := Nat.exists_eq_add_of_le hj
  rw [← bucketAt_ancestor k hl, h, bucketAt_ancestor k hl]

theorem exists_bucketAt {p : ℕ} (hp : p < 2 ^ levels - 1) :
    ∃ a < 2 ^ (levels - 1), ∃ l < levels, bucketAt levels a l = p := by
  have hlow : 2 ^ Nat.log 2 (p + 1) ≤ p + 1 := Nat.pow_log_le_self 2 (Nat.succ_ne_zero p)
  have hhigh : p + 1 < 2 ^ (Nat.log 2 (p + 1) + 1) := Nat.lt_pow_succ_log_self one_lt_two _
  generalize Nat.log 2 (p + 1) = l at hlow hhigh
  have hl : l < levels := by
    have hpow : 2 ^ l < 2 ^ levels := by omega
    exact (Nat.pow_lt_pow_iff_right one_lt_two).mp hpow
  -- The leftmost leaf under the bucket.
  have hoffset : p + 1 - 2 ^ l < 2 ^ l := by
    rw [pow_succ] at hhigh
    omega
  have hwidth : 0 < 2 ^ (levels - l - 1) := Nat.two_pow_pos _
  refine ⟨2 ^ (levels - l - 1) * (p + 1 - 2 ^ l), ?_, l, hl, ?_⟩
  · rw [pow_leaves hl]
    exact Nat.mul_lt_mul_of_pos_left hoffset hwidth
  · rw [bucketAt, Nat.mul_div_cancel_left _ hwidth]
    have hpos : 0 < 2 ^ l := Nat.two_pow_pos l
    omega

theorem leaf_eq (hl : 0 < levels)
    (h : bucketAt levels a (levels - 1) = bucketAt levels b (levels - 1)) : a = b := by
  have hz : levels - (levels - 1) - 1 = 0 := by omega
  simpa [bucketAt, hz] using h

theorem mem_path {p : ℕ} : p ∈ path levels a ↔ ∃ l < levels, p = bucketAt levels a l := by
  simp [path, eq_comm]

end PathTree
