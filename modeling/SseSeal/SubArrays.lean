import SseSeal.Bytes
import SseSeal.ComputedLog
import Mathlib.Data.List.Nodup
import Mathlib.Data.List.Perm.Basic

/-! The placement of a sequence in sub-arrays: a pseudo-random permutation of the subscripts
follows a stream of random integers, and the upper bits of a value select the array. -/
namespace SubArrays

open Bytes ComputedLog

/-- The integers that `randombytes_buf_deterministic` makes of a seed. -/
abbrev Randombytes := Str → ℕ → ℕ

/-- `ceil(log(size) / log(2))`. -/
def baseOf (log : CeilLog) (size : ℕ) : ℕ := log.value 2 size

def swapNext (permutation : ℕ → ℕ) (interval : ℕ) (ans : List ℕ) (i : ℕ) : List ℕ :=
  ans.swap i (i + permutation i % (interval - i))

def pseudoRandomPermutation (log : CeilLog) (randombytes : Randombytes) (valueSize : ℕ)
    (secretKey : Str) : List ℕ :=
  let interval := 2 ^ baseOf log valueSize
  (List.range (interval - 1)).foldl (swapNext (randombytes secretKey) interval)
    (List.range interval)

/-- `get_bits`. A shift by a negative number of bits is undefined. -/
def getBits (base number alpha : ℕ) : Option (ℕ × ℕ) :=
  if base < alpha then none
  else some (number >>> (base - alpha), number &&& (2 ^ (base - alpha) - 1))

def slot (prp : List ℕ) (base alpha i : ℕ) : Option (ℕ × ℕ) := do
  let value ← prp[i]?
  getBits base value alpha

section Tables

variable {α : Type}

def getSlot (arrays : List (List α)) (s : ℕ × ℕ) : Option α := do
  let array ← arrays[s.1]?
  array[s.2]?

def setSlot (arrays : List (List α)) (s : ℕ × ℕ) (a : α) : Option (List (List α)) := do
  let array ← arrays[s.1]?
  if s.2 < array.length then some (arrays.set s.1 (array.set s.2 a)) else none

def fill (slotOf : ℕ → Option (ℕ × ℕ)) : ℕ → List α → List (List α) → Option (List (List α))
  | _, [], arrays => some arrays
  | i, a :: l, arrays => do
    let s ← slotOf i
    let arrays ← setSlot arrays s a
    fill slotOf (i + 1) l arrays

end Tables

variable {log : CeilLog} {randombytes : Randombytes} {secretKey : Str} {n i j alpha : ℕ}

theorem pseudoRandomPermutation_perm (log : CeilLog) (randombytes : Randombytes) (n : ℕ)
    (secretKey : Str) : (pseudoRandomPermutation log randombytes n secretKey).Perm
      (List.range (2 ^ baseOf log n)) := by
  have hfold : ∀ (steps ans : List ℕ), (steps.foldl
      (swapNext (randombytes secretKey) (2 ^ baseOf log n)) ans).Perm ans := by
    intro steps
    induction steps with
    | nil => exact fun ans => List.Perm.refl ans
    | cons i steps ih => exact fun ans => (ih _).trans (List.swap_perm ans i _)
  exact hfold _ _

theorem pseudoRandomPermutation_length :
    (pseudoRandomPermutation log randombytes n secretKey).length = 2 ^ baseOf log n := by
  rw [(pseudoRandomPermutation_perm log randombytes n secretKey).length_eq, List.length_range]

theorem le_two_pow_baseOf (log : CeilLog) (n : ℕ) : n ≤ 2 ^ baseOf log n :=
  log.le_pow Nat.one_lt_two n

theorem baseOf_mono (log : CeilLog) {m : ℕ} (h : m ≤ n) : baseOf log m ≤ baseOf log n :=
  log.mono Nat.one_lt_two h

theorem baseOf_le_of_lt (log : CeilLog) (h : n < 2 ^ 31) : baseOf log n ≤ 31 :=
  log.le_of_lt_pow Nat.one_lt_two h

theorem getBits_bounds {base number : ℕ} (ha : alpha ≤ base) (hn : number < 2 ^ base) :
    ∃ s, getBits base number alpha = some s ∧ s.1 < 2 ^ alpha ∧ s.2 < 2 ^ (base - alpha) := by
  refine ⟨_, if_neg ha.not_gt, ?_, ?_⟩
  · rw [Nat.shiftRight_eq_div_pow]
    apply Nat.div_lt_of_lt_mul
    rwa [← Nat.pow_add, Nat.sub_add_cancel ha]
  · rw [Nat.and_two_pow_sub_one_eq_mod]
    exact Nat.mod_lt _ (Nat.two_pow_pos _)

theorem getBits_inj {base v w : ℕ} {s : ℕ × ℕ} (hv : getBits base v alpha = some s)
    (hw : getBits base w alpha = some s) : v = w := by
  rw [getBits] at hv hw
  split at hv
  · cases hv
  · rename_i ha
    rw [if_neg ha, ← hv, Option.some.injEq, Prod.mk.injEq, Nat.and_two_pow_sub_one_eq_mod,
      Nat.and_two_pow_sub_one_eq_mod, Nat.shiftRight_eq_div_pow, Nat.shiftRight_eq_div_pow] at hw
    rw [← Nat.div_add_mod v (2 ^ (base - alpha)), ← hw.1, ← hw.2, Nat.div_add_mod]

theorem subscript_lt (hi : i < n) :
    i < (pseudoRandomPermutation log randombytes n secretKey).length := by
  rw [pseudoRandomPermutation_length]
  exact hi.trans_le (le_two_pow_baseOf log n)

theorem slot_exists (randombytes : Randombytes) (secretKey : Str) (ha : alpha ≤ baseOf log n)
    (hi : i < n) :
    ∃ s, slot (pseudoRandomPermutation log randombytes n secretKey) (baseOf log n) alpha i =
      some s ∧ s.1 < 2 ^ alpha ∧ s.2 < 2 ^ (baseOf log n - alpha) := by
  have hlt : i < (pseudoRandomPermutation log randombytes n secretKey).length := subscript_lt hi
  have hmem := (pseudoRandomPermutation_perm log randombytes n secretKey).subset
    (List.getElem_mem hlt)
  rw [slot, List.getElem?_eq_getElem hlt]
  exact getBits_bounds ha (List.mem_range.mp hmem)

theorem slot_inj {s : ℕ × ℕ} (hi : i < n)
    (hsi : slot (pseudoRandomPermutation log randombytes n secretKey) (baseOf log n) alpha i =
      some s)
    (hsj : slot (pseudoRandomPermutation log randombytes n secretKey) (baseOf log n) alpha j =
      some s) :
    i = j := by
  obtain ⟨v, hv, hbv⟩ := Option.bind_eq_some_iff.mp hsi
  obtain ⟨w, hw, hbw⟩ := Option.bind_eq_some_iff.mp hsj
  have hvalue : v = w := getBits_inj hbv hbw
  have hnodup : (pseudoRandomPermutation log randombytes n secretKey).Nodup :=
    (pseudoRandomPermutation_perm log randombytes n secretKey).nodup_iff.mpr List.nodup_range
  subst hvalue
  exact (List.getElem?_inj (subscript_lt hi) hnodup).mp (hv.trans hw.symm)

section Tables

variable {α : Type} {arrays arrays' : List (List α)} {s t : ℕ × ℕ} {a : α} {l : List α}
  {slotOf : ℕ → Option (ℕ × ℕ)}

theorem setSlot_exists (h : (getSlot arrays s).isSome) (a : α) :
    ∃ arrays', setSlot arrays s a = some arrays' := by
  obtain ⟨b, hb⟩ := Option.isSome_iff_exists.mp h
  obtain ⟨array, harray, hb⟩ := Option.bind_eq_some_iff.mp hb
  have hlt : s.2 < array.length := (List.getElem?_eq_some_iff.mp hb).1
  exact ⟨arrays.set s.1 (array.set s.2 a), by simp [setSlot, harray, hlt]⟩

theorem getSlot_setSlot (h : setSlot arrays s a = some arrays') (t : ℕ × ℕ) :
    getSlot arrays' t = if t = s then some a else getSlot arrays t := by
  obtain ⟨array, harray, h⟩ := Option.bind_eq_some_iff.mp h
  have hs := (List.getElem?_eq_some_iff.mp harray).1
  split at h
  · rename_i hlt
    cases h
    obtain ⟨i, j⟩ := t
    obtain ⟨i', j'⟩ := s
    simp only [getSlot, Prod.mk.injEq] at harray hlt hs ⊢
    by_cases hi : i = i'
    · subst hi
      by_cases hj : j = j'
      · subst hj
        simp [hs, hlt]
      · have hrow : arrays[i] = array := by simpa [hs] using harray
        simp [hs, hrow, hj, List.getElem?_set_ne (Ne.symm hj)]
    · simp [hi, List.getElem?_set_ne (Ne.symm hi)]
  · cases h

theorem fill_exists (hslot : ∀ j, i ≤ j → j < i + l.length →
      ∃ s, slotOf j = some s ∧ (getSlot arrays s).isSome)
    (hinj : ∀ j k s, j < i + l.length → slotOf j = some s → slotOf k = some s → j = k) :
    ∃ arrays', fill slotOf i l arrays = some arrays' ∧
      (∀ s, (getSlot arrays' s).isSome = (getSlot arrays s).isSome) ∧
      (∀ s, (∀ j, i ≤ j → j < i + l.length → slotOf j ≠ some s) →
        getSlot arrays' s = getSlot arrays s) ∧
      ∀ j b s, l[j]? = some b → slotOf (i + j) = some s → getSlot arrays' s = some b := by
  induction l generalizing i arrays with
  | nil => exact ⟨arrays, rfl, fun _ => rfl, fun _ _ => rfl, by simp⟩
  | cons a l ih =>
    rw [List.length_cons] at hslot hinj
    obtain ⟨s₀, hs₀, hin⟩ := hslot i le_rfl (by omega)
    obtain ⟨arrays₁, hset⟩ := setSlot_exists hin a
    have hget := getSlot_setSlot hset
    have hsome : ∀ s, (getSlot arrays₁ s).isSome = (getSlot arrays s).isSome := by
      intro s
      rw [hget]
      split
      · rename_i heq
        rw [heq, hin]
        rfl
      · rfl
    have hslot₁ : ∀ j, i + 1 ≤ j → j < i + 1 + l.length →
        ∃ s, slotOf j = some s ∧ (getSlot arrays₁ s).isSome := by
      intro j hij hj
      obtain ⟨s, hs, hins⟩ := hslot j (by omega) (by omega)
      exact ⟨s, hs, (hsome s).trans hins⟩
    obtain ⟨arrays₂, hfill, hsome₂, hframe, hread⟩ :=
      ih hslot₁ fun j k s hj => hinj j k s (by omega)
    refine ⟨arrays₂, ?_, fun s => (hsome₂ s).trans (hsome s), ?_, ?_⟩
    · simp [fill, hs₀, hset, hfill]
    · intro s hs
      rw [List.length_cons] at hs
      have hne : s ≠ s₀ := by
        rintro rfl
        exact hs i le_rfl (by omega) hs₀
      rw [hframe s fun j hij hj => hs j (by omega) (by omega), hget, if_neg hne]
    · intro j b s hj hs
      cases j with
      | zero =>
        rw [List.getElem?_cons_zero] at hj
        rw [Nat.add_zero, hs₀] at hs
        cases hj
        cases hs
        rw [hframe s₀ ?_, hget, if_pos rfl]
        intro k hk _ hks
        have heq := hinj i k s₀ (by omega) hs₀ hks
        omega
      | succ j =>
        rw [List.getElem?_cons_succ] at hj
        exact hread j b s hj (by rwa [Nat.add_right_comm])

end Tables

end SubArrays
