import Mathlib.Algebra.Group.Nat.Defs
import Mathlib.Data.Nat.Log

/-! Logarithms as floating-point arithmetic computes them. -/
namespace ComputedLog

/-- The values of `ceil(log(n) / log(b))`. The quotient of two rounded logarithms may come out
above the exact one, which shows only where that is an integer: at a power of the base. It
comes out below an integer that it should pass only from about `2 ^ 46` on, which no count of
the source reaches. -/
structure CeilLog where
  value : ℕ → ℕ → ℕ
  clog_le : ∀ {b : ℕ} (n : ℕ), 1 < b → Nat.clog b n ≤ value b n
  le_clog : ∀ {b : ℕ} (n : ℕ), 1 < b → value b n ≤ Nat.clog b (n + 1)

namespace CeilLog

/-- No power comes out above its logarithm. -/
def ideal : CeilLog := ⟨Nat.clog, fun _ _ => le_rfl, fun n _ => Nat.clog_mono_right _ n.le_succ⟩

variable {b m n : ℕ}

theorem le_pow (log : CeilLog) (hb : 1 < b) (n : ℕ) : n ≤ b ^ log.value b n :=
  (Nat.le_pow_clog hb n).trans (Nat.pow_le_pow_right (by omega) (log.clog_le n hb))

theorem mono (log : CeilLog) (hb : 1 < b) (h : m ≤ n) : log.value b m ≤ log.value b n := by
  obtain rfl | hlt := h.eq_or_lt
  · exact le_rfl
  · calc
      log.value b m ≤ Nat.clog b (m + 1) := log.le_clog m hb
      _ ≤ Nat.clog b n := Nat.clog_mono_right b hlt
      _ ≤ log.value b n := log.clog_le n hb

theorem le_of_lt_pow (log : CeilLog) {k : ℕ} (hb : 1 < b) (h : n < b ^ k) : log.value b n ≤ k :=
  (log.le_clog n hb).trans ((Nat.clog_le_iff_le_pow hb).mpr h)

end CeilLog

end ComputedLog
