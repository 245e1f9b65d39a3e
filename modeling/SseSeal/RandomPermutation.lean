import SseSeal.Shuffle
import SseSeal.SubArrays
import Mathlib.Analysis.SpecialFunctions.Log.Base
import Mathlib.Data.Set.Function

/-! `pseudo_random_permutation` as a shuffle: the random integers matter only through the offsets
that they leave, and these stand for the permutations one by one. -/
namespace RandomPermutation

open Bytes ComputedLog SubArrays Shuffle

/-- The number of bits is the one of the formula of the source, for exact logarithms. -/
theorem baseOf_eq_ceil (n : ℕ) : baseOf .ideal n = ⌈Real.log n / Real.log 2⌉₊ := by
  have hlog := Real.natCeil_logb_natCast 2 n
  rw [Real.logb, Nat.cast_ofNat] at hlog
  exact hlog.symm

/-- The offsets that the loop uses: a position is exchanged with one that is not before it. -/
abbrev Offsets (interval : ℕ) := (i : Fin (interval - 1)) → Fin (interval - i)

/-- The offsets that an array of random integers leaves. -/
def offsetsOf (permutation : ℕ → ℕ) (interval : ℕ) : Offsets interval := fun i =>
  ⟨permutation i % (interval - i), Nat.mod_lt _ (by omega)⟩

variable {interval : ℕ}

def offsetAt (o : Offsets interval) (i : ℕ) : ℕ :=
  if h : i < interval - 1 then o ⟨i, h⟩ else 0

def shuffled (o : Offsets interval) : List ℕ :=
  shuffleFrom (offsetAt o) (List.range interval) 0 (interval - 1)

theorem offsetAt_offsetsOf {permutation : ℕ → ℕ} {i : ℕ} (h : i < interval - 1) :
    offsetAt (offsetsOf permutation interval) i = permutation i % (interval - i) := by
  rw [offsetAt, dif_pos h]
  rfl

theorem offsetAt_within (o : Offsets interval) :
    Within (offsetAt o) (List.range interval).length 0 (interval - 1) := by
  intro i _ hi
  rw [Nat.zero_add] at hi
  rw [List.length_range, offsetAt, dif_pos hi]
  have hlt := (o ⟨i, hi⟩).isLt
  change _ < interval - i at hlt
  omega

theorem pseudoRandomPermutation_eq (log : CeilLog) (randombytes : Randombytes) (n : ℕ)
    (secretKey : Str) : pseudoRandomPermutation log randombytes n secretKey =
      shuffled (offsetsOf (randombytes secretKey) (2 ^ baseOf log n)) := by
  have hloop : pseudoRandomPermutation log randombytes n secretKey =
      shuffleFrom (fun i => randombytes secretKey i % (2 ^ baseOf log n - i))
        (List.range (2 ^ baseOf log n)) 0 (2 ^ baseOf log n - 1) := by
    rw [shuffleFrom, ← List.range_eq_range']
    rfl
  rw [hloop, shuffled]
  apply shuffleFrom_congr
  intro i _ hi
  rw [Nat.zero_add] at hi
  exact (offsetAt_offsetsOf hi).symm

theorem shuffled_injective : Function.Injective (shuffled : Offsets interval → List ℕ) := by
  intro o o' heq
  funext i
  apply Fin.ext
  have hpos : (i : ℕ) < 0 + (interval - 1) := by omega
  have hoffset := offset_unique List.nodup_range (offsetAt_within o) (offsetAt_within o') heq
    (Nat.zero_le i) hpos
  rwa [offsetAt, offsetAt, dif_pos i.isLt, dif_pos i.isLt] at hoffset

theorem shuffled_surjective {l : List ℕ} (hpos : 0 < interval)
    (hl : l.Perm (List.range interval)) : ∃ o : Offsets interval, shuffled o = l := by
  have hlen : 0 + (interval - 1) + 1 = (List.range interval).length := by
    rw [List.length_range]
    omega
  obtain ⟨offset, hwithin, hl⟩ := exists_offset hl List.nodup_range hlen (by omega)
  rw [List.length_range] at hwithin
  refine ⟨fun i => ⟨offset i, ?_⟩, ?_⟩
  · have hlt := hwithin i (Nat.zero_le _) (by omega)
    omega
  · rw [← hl, shuffled]
    apply shuffleFrom_congr
    intro i _ hi
    rw [Nat.zero_add] at hi
    rw [offsetAt, dif_pos hi]

/-- Each choice of the offsets is left by an array of small integers. -/
theorem offsetsOf_surjective (o : Offsets interval) :
    ∃ permutation, (∀ i, permutation i ≤ interval) ∧ offsetsOf permutation interval = o := by
  refine ⟨offsetAt o, ?_, ?_⟩
  · intro i
    rw [offsetAt]
    split
    · have hlt := (o ⟨i, ‹_›⟩).isLt
      change _ < interval - i at hlt
      omega
    · exact Nat.zero_le interval
  · funext i
    apply Fin.ext
    have hlt := (o i).isLt
    change offsetAt o i % (interval - i) = o i
    rw [offsetAt, dif_pos i.isLt, Nat.mod_eq_of_lt hlt]

/-- The loop makes a permutation of any integers, and each permutation with exactly one choice of
the offsets, which all occur. -/
theorem shuffle_bijective (log : CeilLog) (n : ℕ) :
    (∀ randombytes secretKey,
      (pseudoRandomPermutation log randombytes n secretKey).Perm (List.range (2 ^ baseOf log n)) ∧
      pseudoRandomPermutation log randombytes n secretKey =
        shuffled (offsetsOf (randombytes secretKey) (2 ^ baseOf log n))) ∧
    (∀ o : Offsets (2 ^ baseOf log n), ∃ permutation, (∀ i, permutation i ≤ 2 ^ baseOf log n) ∧
      offsetsOf permutation (2 ^ baseOf log n) = o) ∧
    Set.BijOn (shuffled : Offsets (2 ^ baseOf log n) → List ℕ) Set.univ
      {l | l.Perm (List.range (2 ^ baseOf log n))} := by
  refine ⟨?_, offsetsOf_surjective, ?_, shuffled_injective.injOn, ?_⟩
  · intro randombytes secretKey
    exact ⟨pseudoRandomPermutation_perm log randombytes n secretKey,
      pseudoRandomPermutation_eq log randombytes n secretKey⟩
  · intro o _
    exact shuffleFrom_perm
  · intro l hl
    obtain ⟨o, ho⟩ := shuffled_surjective (Nat.two_pow_pos _) hl
    exact ⟨o, Set.mem_univ o, ho⟩

end RandomPermutation
