import Mathlib.Data.LawfulXor.Basic
import Mathlib.Data.Nat.Log
import Mathlib.Data.Nat.Size
import Mathlib.Tactic.Linarith
import Mathlib.Tactic.Ring

/-! Blocks of `2 ^ n` numbers that start at a multiple of `2 ^ n`: the smallest one with two given
numbers, and how many numbers between them lie in each of its halves. -/
namespace DyadicSplit

/-- The smallest block with two numbers has `2 ^ fork x y` numbers. -/
def fork (x y : ℕ) : ℕ := (x ^^^ y).size

/-- How many numbers from `x` on are in the lower half of that block. -/
def lowPart (x y : ℕ) : ℕ := 2 ^ (fork x y - 1) - x % 2 ^ (fork x y - 1)

/-- How many numbers up to `y` are in the upper half of that block. -/
def highPart (x y : ℕ) : ℕ := y % 2 ^ (fork x y - 1) + 1

theorem fork_le {x y n : ℕ} : fork x y ≤ n ↔ x / 2 ^ n = y / 2 ^ n := by
  rw [fork, Nat.size_le, ← Nat.div_eq_zero_iff_lt (by positivity), Nat.xor_div_two_pow,
    xor_eq_zero_iff]

/-- A block of `2 ^ (n + 1)` numbers from `o` on has a number in each half. -/
structure Splits (x y n o : ℕ) : Prop where
  start : o ≤ x
  low : x < o + 2 ^ n
  high : o + 2 ^ n ≤ y
  stop : y < o + 2 * 2 ^ n
  aligned : 2 ^ (n + 1) ∣ o

variable {x y n o w B : ℕ}

theorem div_of_block {a : ℕ} (h : 2 ^ w ∣ o) (hlo : o ≤ a) (hhi : a < o + 2 ^ w) :
    a / 2 ^ w = o / 2 ^ w := by
  obtain ⟨c, rfl⟩ := h
  have hpos : 0 < 2 ^ w := by positivity
  rw [Nat.mul_div_cancel_left c hpos]
  apply Nat.div_eq_of_lt_le
  · rw [Nat.mul_comm]
    exact hlo
  · rw [Nat.add_mul, Nat.one_mul, Nat.mul_comm c]
    exact hhi

theorem eq_of_dvd_of_lt {a b m : ℕ} (ha : m ∣ a) (hb : m ∣ b) (h₁ : a < b + m) (h₂ : b < a + m) :
    a = b := by
  rcases le_total a b with h | h
  · have hzero := Nat.eq_zero_of_dvd_of_lt (Nat.dvd_sub hb ha) (by omega)
    omega
  · have hzero := Nat.eq_zero_of_dvd_of_lt (Nat.dvd_sub ha hb) (by omega)
    omega

theorem not_dvd_half (h : 2 ^ (w + 1) ∣ o) : ¬ 2 ^ (w + 1) ∣ o + 2 ^ w := by
  intro hdvd
  have hhalf : 2 ^ (w + 1) ∣ 2 ^ w := (Nat.dvd_add_iff_right h).mpr hdvd
  exact absurd (Nat.le_of_dvd (by positivity) hhalf) (by
    have hpos : 0 < 2 ^ w := by positivity
    omega)

theorem fork_le_of_block (h : 2 ^ w ∣ o) (hlo : o ≤ x) (hle : x ≤ y) (hhi : y < o + 2 ^ w) :
    fork x y ≤ w := by
  rw [fork_le, div_of_block h hlo (by omega), div_of_block h (by omega) hhi]

namespace Splits

theorem fork (h : Splits x y n o) : fork x y = n + 1 := by
  obtain ⟨hstart, hlow, hhigh, hstop, haligned⟩ := h
  have hpow : 2 ^ (n + 1) = 2 * 2 ^ n := pow_succ' 2 n
  have hhalf : 2 ^ n ∣ o := dvd_trans (pow_dvd_pow 2 (Nat.le_succ n)) haligned
  apply le_antisymm
  · exact fork_le_of_block haligned hstart (by omega) (by omega)
  · rw [Nat.succ_le_iff, ← not_le, fork_le, div_of_block hhalf hstart hlow,
      div_of_block (Nat.dvd_add hhalf dvd_rfl) hhigh (by omega),
      Nat.add_div_right _ (by positivity)]
    exact (Nat.lt_succ_self _).ne

theorem lowPart (h : Splits x y n o) : lowPart x y = o + 2 ^ n - x := by
  obtain ⟨c, hc⟩ := dvd_trans (pow_dvd_pow 2 (Nat.le_succ n)) h.aligned
  have hstart := h.start
  have hlow := h.low
  have hmod : x % 2 ^ n = x - o := by
    have hx : x = x - o + 2 ^ n * c := by omega
    rw [hx, Nat.add_mul_mod_self_left, Nat.mod_eq_of_lt (by omega)]
    omega
  rw [DyadicSplit.lowPart, h.fork, Nat.add_sub_cancel, hmod]
  omega

theorem highPart (h : Splits x y n o) : highPart x y = y + 1 - (o + 2 ^ n) := by
  obtain ⟨c, hc⟩ := dvd_trans (pow_dvd_pow 2 (Nat.le_succ n)) h.aligned
  have hhigh := h.high
  have hstop := h.stop
  have hmod : y % 2 ^ n = y - (o + 2 ^ n) := by
    have hy : y = y - (o + 2 ^ n) + 2 ^ n * (c + 1) := by
      rw [Nat.mul_add, Nat.mul_one]
      omega
    rw [hy, Nat.add_mul_mod_self_left, Nat.mod_eq_of_lt (by omega)]
    rw [Nat.mul_add, Nat.mul_one]
    omega
  rw [DyadicSplit.highPart, h.fork, Nat.add_sub_cancel, hmod]
  omega

end Splits

/-- Two different numbers of a block are split by a block in it. -/
theorem exists_splits {k : ℕ} (ho : 2 ^ k ∣ o) (hlo : o ≤ x) (hlt : x < y)
    (hhi : y < o + 2 ^ k) :
    ∃ n o', Splits x y n o' ∧ o ≤ o' ∧ o' + 2 * 2 ^ n ≤ o + 2 ^ k := by
  induction k generalizing o with
  | zero => omega
  | succ k ih =>
    have hpow : 2 ^ (k + 1) = 2 * 2 ^ k := pow_succ' 2 k
    have hhalf : 2 ^ k ∣ o := dvd_trans (pow_dvd_pow 2 (Nat.le_succ k)) ho
    by_cases hlow : x < o + 2 ^ k
    · by_cases hhigh : o + 2 ^ k ≤ y
      · exact ⟨k, o, ⟨hlo, hlow, hhigh, by omega, ho⟩, le_rfl, by omega⟩
      · obtain ⟨n, o', hsplits, h₁, h₂⟩ := ih hhalf hlo (by omega)
        exact ⟨n, o', hsplits, h₁, by omega⟩
    · obtain ⟨n, o', hsplits, h₁, h₂⟩ := ih (o := o + 2 ^ k) (Nat.dvd_add hhalf dvd_rfl)
        (by omega) (by omega)
      exact ⟨n, o', hsplits, by omega, by omega⟩

end DyadicSplit
