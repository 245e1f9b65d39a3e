import Mathlib.Data.List.Nodup
import Mathlib.Data.List.Perm.Basic

/-! The shuffle of a list that exchanges each position, in order, with itself or a later one.
Every arrangement of a list without duplicates comes from exactly one choice of the exchanges. -/
namespace Shuffle

variable {α : Type} {l t : List α} {offset offset' : ℕ → ℕ} {i j k : ℕ}

def exchange (offset : ℕ → ℕ) (l : List α) (i : ℕ) : List α := l.swap i (i + offset i)

/-- The exchanges of `k` positions from `i` on. -/
def shuffleFrom (offset : ℕ → ℕ) (l : List α) (i k : ℕ) : List α :=
  (List.range' i k).foldl (exchange offset) l

def Within (offset : ℕ → ℕ) (n i k : ℕ) : Prop :=
  ∀ j, i ≤ j → j < i + k → j + offset j < n

@[simp] theorem shuffleFrom_zero : shuffleFrom offset l i 0 = l := rfl

theorem shuffleFrom_succ : shuffleFrom offset l i (k + 1) =
    shuffleFrom offset (exchange offset l i) (i + 1) k := rfl

@[simp] theorem exchange_length : (exchange offset l i).length = l.length := by
  simp [exchange]

theorem exchange_perm : (exchange offset l i).Perm l := List.swap_perm l i _

theorem shuffleFrom_perm : (shuffleFrom offset l i k).Perm l := by
  induction k generalizing l i with
  | zero => exact List.Perm.refl l
  | succ k ih =>
    rw [shuffleFrom_succ]
    exact ih.trans exchange_perm

theorem Within.succ (h : Within offset l.length i (k + 1)) :
    i + offset i < l.length ∧ Within offset (exchange offset l i).length (i + 1) k := by
  constructor
  · exact h i (Nat.le_refl i) (by omega)
  · intro j hij hj
    rw [exchange_length]
    exact h j (by omega) (by omega)

theorem exchange_getElem?_lt (h : j < i) : (exchange offset l i)[j]? = l[j]? := by
  rw [exchange, List.swap_eq]
  split
  · rw [List.getElem?_set_ne (by omega), List.getElem?_set_ne (by omega)]
  · rfl

theorem exchange_getElem?_self (h : i + offset i < l.length) :
    (exchange offset l i)[i]? = l[i + offset i]? := by
  have hi : i < (exchange offset l i).length := by
    rw [exchange_length]
    omega
  rw [List.getElem?_eq_getElem hi, List.getElem?_eq_getElem h]
  exact congrArg some (List.getElem_swap_left_of_lt h hi)

theorem shuffleFrom_getElem?_lt (h : j < i) : (shuffleFrom offset l i k)[j]? = l[j]? := by
  induction k generalizing l i with
  | zero => rfl
  | succ k ih => rw [shuffleFrom_succ, ih (by omega), exchange_getElem?_lt h]

/-- The first exchange decides which element its position ends with. -/
theorem shuffleFrom_getElem?_self (h : i + offset i < l.length) :
    (shuffleFrom offset l i (k + 1))[i]? = l[i + offset i]? := by
  rw [shuffleFrom_succ, shuffleFrom_getElem?_lt (Nat.lt_succ_self i), exchange_getElem?_self h]

theorem exchange_congr (h : offset i = offset' i) :
    exchange offset l i = exchange offset' l i := by
  rw [exchange, exchange, h]

theorem shuffleFrom_congr (h : ∀ j, i ≤ j → j < i + k → offset j = offset' j) :
    shuffleFrom offset l i k = shuffleFrom offset' l i k := by
  induction k generalizing l i with
  | zero => rfl
  | succ k ih =>
    rw [shuffleFrom_succ, shuffleFrom_succ, exchange_congr (h i (Nat.le_refl i) (by omega))]
    exact ih fun j hij hj => h j (by omega) (by omega)

theorem offset_unique (hd : l.Nodup) (h : Within offset l.length i k)
    (h' : Within offset' l.length i k)
    (heq : shuffleFrom offset l i k = shuffleFrom offset' l i k) (hij : i ≤ j) (hj : j < i + k) :
    offset j = offset' j := by
  induction k generalizing l i with
  | zero => omega
  | succ k ih =>
    obtain ⟨hi, hrest⟩ := h.succ
    obtain ⟨hi', hrest'⟩ := h'.succ
    have hhead : l[i + offset i]? = l[i + offset' i]? := by
      rw [← shuffleFrom_getElem?_self hi (k := k), ← shuffleFrom_getElem?_self hi' (k := k), heq]
    have hfirst : offset i = offset' i := by
      have hpos := (List.getElem?_inj hi hd).mp hhead
      omega
    by_cases hj' : j = i
    · rw [hj']
      exact hfirst
    · rw [shuffleFrom_succ, shuffleFrom_succ, ← exchange_congr hfirst] at heq
      rw [← exchange_congr hfirst] at hrest'
      exact ih (exchange_perm.nodup_iff.mpr hd) hrest hrest' heq (by omega) (by omega)

theorem eq_of_perm_of_take (ht : t.Perm l) (hlen : i + 1 = l.length)
    (hsame : ∀ j, j < i → t[j]? = l[j]?) : t = l := by
  have htake : t.take i = l.take i := by
    apply List.ext_getElem?
    intro j
    rw [List.getElem?_take, List.getElem?_take]
    split
    · exact hsame j ‹j < i›
    · rfl
  have hlast : (l.drop i).length = 1 := by
    rw [List.length_drop]
    omega
  obtain ⟨a, ha⟩ := List.length_eq_one_iff.mp hlast
  have hdrop : (t.drop i).Perm (l.drop i) := by
    rw [← List.take_append_drop i t, ← List.take_append_drop i l, htake] at ht
    exact (List.perm_append_left_iff _).mp ht
  rw [ha] at hdrop
  rw [← List.take_append_drop i t, htake, List.perm_singleton.mp hdrop, ← ha,
    List.take_append_drop]

/-- An arrangement that has the elements of a list up to a position comes from exchanges of the
positions from there on, the last of which has nothing to exchange with. -/
theorem exists_offset (ht : t.Perm l) (hd : l.Nodup) (hlen : i + k + 1 = l.length)
    (hsame : ∀ j, j < i → t[j]? = l[j]?) :
    ∃ offset, Within offset l.length i k ∧ shuffleFrom offset l i k = t := by
  induction k generalizing l i with
  | zero =>
    refine ⟨fun _ => 0, ?_, (eq_of_perm_of_take ht hlen hsame).symm⟩
    intro j hij hj
    omega
  | succ k ih =>
    have hi : i < t.length := by
      rw [ht.length_eq]
      omega
    obtain ⟨p, hp, hpt⟩ := List.getElem_of_mem (ht.subset (List.getElem_mem hi))
    have hip : i ≤ p := by
      by_contra hlt
      have hvalue : t[p]? = t[i]? := by
        rw [hsame p (by omega), List.getElem?_eq_getElem hp, List.getElem?_eq_getElem hi, hpt]
      have hpos := (List.getElem?_inj (by omega) (ht.nodup_iff.mpr hd)).mp hvalue
      omega
    let first : ℕ → ℕ := fun _ => p - i
    have hfirst : i + first i = p := Nat.add_sub_cancel' hip
    have hin : i + first i < l.length := hfirst ▸ hp
    have hnext : ∀ j, j < i + 1 → t[j]? = (exchange first l i)[j]? := by
      intro j hj
      by_cases hji : j = i
      · rw [hji, exchange_getElem?_self hin, hfirst, List.getElem?_eq_getElem hi,
          List.getElem?_eq_getElem hp, hpt]
      · rw [exchange_getElem?_lt (by omega)]
        exact hsame j (by omega)
    obtain ⟨rest, hwithin, hrest⟩ := ih (ht.trans exchange_perm.symm)
      (exchange_perm.nodup_iff.mpr hd) (by rw [exchange_length]; omega) hnext
    rw [exchange_length] at hwithin
    have hself : Function.update rest i (p - i) i = first i := Function.update_self ..
    have hother : ∀ j, i + 1 ≤ j → Function.update rest i (p - i) j = rest j :=
      fun j hj => Function.update_of_ne (by omega) ..
    refine ⟨Function.update rest i (p - i), ?_, ?_⟩
    · intro j hij hj
      by_cases hji : j = i
      · rwa [hji, hself]
      · rw [hother j (by omega)]
        exact hwithin j (by omega) (by omega)
    · rw [shuffleFrom_succ, exchange_congr hself,
        shuffleFrom_congr fun j hj _ => hother j hj]
      exact hrest

end Shuffle
