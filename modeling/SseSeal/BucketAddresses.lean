import SseSeal.OramBlocks

/-! `P` on the `int` values it computes with, and the complete binary tree that it
numbers. A shift or a sum that leaves the range of `int` is undefined. -/
namespace BucketAddresses

open OramReadPathEviction OramEviction OramBlocks PathTree

def inInt (i : ℤ) : Option ℤ := if -2 ^ 31 ≤ i ∧ i < 2 ^ 31 then some i else none

def shiftLeft (i s : ℤ) : Option ℤ :=
  if 0 ≤ i ∧ 0 ≤ s ∧ s < 32 then inInt (i <<< s.toNat) else none

def shiftRight (i : ℤ) (s : ℕ) : Option ℤ := if s < 32 then some (i >>> s) else none

/-- `P`, or `none` where it is undefined. The count of the right shift is computed
on `unsigned int`, as `num_levels` has this type. -/
def P (o : Oram) (leaf level : ℤ) : Option ℤ := do
  let first ← inInt ((← shiftLeft 1 level) - 1)
  inInt (first + (← shiftRight leaf (toUnsigned (o.numLevels - level - 1))))

variable {o : Oram}

theorem inInt_natCast {n : ℕ} (h : n < 2 ^ 31) : inInt n = some (n : ℤ) := by
  rw [inInt, if_pos (by omega)]

theorem shiftLeft_one {l : ℕ} (h : l < 31) : shiftLeft 1 l = some ((2 ^ l : ℕ) : ℤ) := by
  have hpow : 2 ^ l < 2 ^ 31 := Nat.pow_lt_pow_right one_lt_two h
  rw [shiftLeft, if_pos (by omega), Int.toNat_natCast, Int.shiftLeft_eq, one_mul,
    ← Nat.cast_ofNat, ← Nat.cast_pow, inInt_natCast hpow]

theorem P_natCast {a l : ℕ} (ha : a < 2 ^ (o.numLevels - 1)) (hl : l < o.numLevels)
    (hmax : o.numLevels ≤ 31) : P o a l = some (o.P a l : ℤ) := by
  have hbelow : o.P a l < 2 ^ o.numLevels - 1 := by
    rw [P_eq]
    exact bucketAt_lt ha hl
  have hpow : 2 ^ o.numLevels ≤ 2 ^ 31 := Nat.pow_le_pow_right (by omega) hmax
  have hlevel : 2 ^ l < 2 ^ 31 := Nat.pow_lt_pow_right one_lt_two (by omega)
  have hfirst : ((2 ^ l : ℕ) : ℤ) - 1 = ((2 ^ l - 1 : ℕ) : ℤ) := by
    rw [Nat.cast_sub (Nat.one_le_two_pow), Nat.cast_one]
  have hcount : toUnsigned (o.numLevels - l - 1) = o.numLevels - l - 1 := by
    rw [toUnsigned]
    omega
  have hsum : ((2 ^ l - 1 : ℕ) : ℤ) + (a : ℤ) >>> (o.numLevels - l - 1) = (o.P a l : ℤ) := by
    rw [← Int.natCast_shiftRight, ← Nat.cast_add, Oram.P, Nat.one_shiftLeft]
  rw [P, shiftLeft_one (by omega), hcount, shiftRight, if_pos (by omega)]
  simp only [Option.bind_eq_bind, Option.bind_some]
  rw [hfirst, inInt_natCast (by omega), Option.bind_some, hsum, inInt_natCast (by omega)]

/-- A bucket at level 31 has no address, however many levels the tree has. -/
theorem P_undefined {leaf level : ℤ} (h : 31 ≤ level) : P o leaf level = none := by
  have hshift : shiftLeft 1 level = none := by
    by_cases hwidth : level < 32
    · obtain rfl : level = 31 := by omega
      rfl
    · rw [shiftLeft, if_neg (by omega)]
  rw [P, hshift]
  rfl

def Leaf (numLevels : ℕ) (a : ℤ) : Prop := 0 ≤ a ∧ a < 2 ^ (numLevels - 1)

def Level (numLevels : ℕ) (l : ℤ) : Prop := 0 ≤ l ∧ l < numLevels

/-- The function gives the bucket at each level of the path to each leaf of a complete
binary tree, whose buckets are numbered from 0 to `2 ^ numLevels - 2`. -/
structure CompleteTree (numLevels : ℕ) (address : ℤ → ℤ → Option ℤ) : Prop where
  range : ∀ a l, Leaf numLevels a → Level numLevels l →
    ∃ p, address a l = some p ∧ 0 ≤ p ∧ p < 2 ^ numLevels - 1
  root : ∀ a, Leaf numLevels a → address a 0 = some 0
  parent : ∀ a l, Leaf numLevels a → Level numLevels l → l + 1 < numLevels →
    ∃ p, address a (l + 1) = some p ∧ address a l = some ((p - 1) / 2)
  level : ∀ a b l m, Leaf numLevels a → Leaf numLevels b → Level numLevels l →
    Level numLevels m → address a l = address b m → l = m
  shared : ∀ a b l j, Leaf numLevels a → Leaf numLevels b → Level numLevels l →
    address a l = address b l → 0 ≤ j → j ≤ l → address a j = address b j
  deepest : ∀ a b, Leaf numLevels a → Leaf numLevels b →
    address a (numLevels - 1) = address b (numLevels - 1) → a = b
  onto : ∀ p, 0 ≤ p → p < 2 ^ numLevels - 1 →
    ∃ a l, Leaf numLevels a ∧ Level numLevels l ∧ address a l = some p

theorem Leaf.nat {n : ℕ} {a : ℤ} (h : Leaf n a) : ∃ k : ℕ, a = k ∧ k < 2 ^ (n - 1) := by
  obtain ⟨k, rfl⟩ := Int.eq_ofNat_of_zero_le h.1
  refine ⟨k, rfl, ?_⟩
  exact_mod_cast h.2

theorem Level.nat {n : ℕ} {l : ℤ} (h : Level n l) : ∃ k : ℕ, l = k ∧ k < n := by
  obtain ⟨k, rfl⟩ := Int.eq_ofNat_of_zero_le h.1
  refine ⟨k, rfl, ?_⟩
  exact_mod_cast h.2

section Numbering

variable {n : ℕ} {address : ℤ → ℤ → Option ℤ}
  (haddress : ∀ a l : ℕ, a < 2 ^ (n - 1) → l < n → address a l = some (bucketAt n a l : ℤ))

include haddress

theorem bucketAt_eq {a b l m : ℕ} (ha : a < 2 ^ (n - 1)) (hb : b < 2 ^ (n - 1)) (hl : l < n)
    (hm : m < n) (h : address a l = address b m) : bucketAt n a l = bucketAt n b m := by
  rw [haddress a l ha hl, haddress b m hb hm, Option.some_inj, Nat.cast_inj] at h
  exact h

theorem completeTree_of (hpos : 1 ≤ n) : CompleteTree n address where
  range := by
    intro a l hleaf hlevel
    obtain ⟨a, rfl, ha⟩ := hleaf.nat
    obtain ⟨l, rfl, hl⟩ := hlevel.nat
    refine ⟨bucketAt n a l, haddress a l ha hl, by omega, ?_⟩
    have hlt := bucketAt_lt ha hl
    have hcast : ((2 ^ n : ℕ) : ℤ) = 2 ^ n := by simp
    omega
  root := by
    intro a hleaf
    obtain ⟨a, rfl, ha⟩ := hleaf.nat
    have h := haddress a 0 ha hpos
    rw [bucketAt_root ha] at h
    exact h
  parent := by
    intro a l hleaf hlevel hnext
    obtain ⟨a, rfl, ha⟩ := hleaf.nat
    obtain ⟨l, rfl, hl⟩ := hlevel.nat
    have hlast : l + 1 < n := by omega
    refine ⟨bucketAt n a (l + 1), haddress a (l + 1) ha hlast, ?_⟩
    have hge : 2 ^ (l + 1) - 1 ≤ bucketAt n a (l + 1) := bucketAt_ge
    have hroot : 2 ≤ 2 ^ (l + 1) := Nat.le_self_pow (by omega) 2
    rw [haddress a l ha hl, ← parent_bucketAt hlast, PathTree.parent]
    congr 1
    omega
  level := by
    intro a b l m hleaf hleaf' hlevel hlevel' h
    obtain ⟨a, rfl, ha⟩ := hleaf.nat
    obtain ⟨b, rfl, hb⟩ := hleaf'.nat
    obtain ⟨l, rfl, hl⟩ := hlevel.nat
    obtain ⟨m, rfl, hm⟩ := hlevel'.nat
    rw [level_eq ha hb hl hm (bucketAt_eq haddress ha hb hl hm h)]
  shared := by
    intro a b l j hleaf hleaf' hlevel h hj hle
    obtain ⟨a, rfl, ha⟩ := hleaf.nat
    obtain ⟨b, rfl, hb⟩ := hleaf'.nat
    obtain ⟨l, rfl, hl⟩ := hlevel.nat
    obtain ⟨j, rfl⟩ := Int.eq_ofNat_of_zero_le hj
    have hjl : j ≤ l := by omega
    have hmeet := bucketAt_eq haddress ha hb hl hl h
    rw [haddress a j ha (by omega), haddress b j hb (by omega), bucketAt_shared hjl hl hmeet]
  deepest := by
    intro a b hleaf hleaf' h
    obtain ⟨a, rfl, ha⟩ := hleaf.nat
    obtain ⟨b, rfl, hb⟩ := hleaf'.nat
    have hlast : (n : ℤ) - 1 = ((n - 1 : ℕ) : ℤ) := by omega
    rw [hlast] at h
    rw [leaf_eq hpos (bucketAt_eq haddress ha hb (by omega) (by omega) h)]
  onto := by
    intro p hp hlt
    obtain ⟨p, rfl⟩ := Int.eq_ofNat_of_zero_le hp
    have hbelow : p < 2 ^ n - 1 := by
      have hcast : ((2 ^ n : ℕ) : ℤ) = 2 ^ n := by simp
      omega
    obtain ⟨a, ha, l, hl, rfl⟩ := exists_bucketAt hbelow
    refine ⟨a, l, ⟨by omega, by exact_mod_cast ha⟩, ⟨by omega, by omega⟩, haddress a l ha hl⟩

end Numbering

theorem P_completeTree (o : Oram) (hpos : 1 ≤ o.numLevels) (hmax : o.numLevels ≤ 31) :
    CompleteTree o.numLevels (P o) := by
  refine completeTree_of ?_ hpos
  intro a l ha hl
  rw [P_natCast ha hl hmax, P_eq]

theorem P_completeTree_two : CompleteTree 2 (P (blank 1 2 .new ⟨0, fun k => k, 0⟩)) :=
  P_completeTree (blank 1 2 .new ⟨0, fun k => k, 0⟩) (by decide) (by decide)

theorem lt_numBuckets_iff {p : ℕ} (hw : WellFormed o) :
    p < o.numBuckets ↔ ∃ a < o.numLeaves, ∃ l < o.numLevels, o.P a l = p := by
  simp only [hw.buckets_eq, hw.leaves_eq, P_eq]
  constructor
  · exact exists_bucketAt
  · intro h
    obtain ⟨a, ha, l, hl, hp⟩ := h
    rw [← hp]
    exact bucketAt_lt ha hl

end BucketAddresses
