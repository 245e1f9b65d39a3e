import SseSeal.RandomPermutation
import SseSeal.SubOrams

/-! Where the documents of an index go: the writer and the reader find the same slot for a
subscript, as long as there are more than half as many documents as arrays. -/
namespace Placement

open Bytes ComputedLog Objects StateExcept OramReadPathEviction SubArrays SubOrams

/-- The size of an array is the one of the formula of the source, for exact powers. -/
theorem arraySize_eq_ceil (base : ℕ) {mu : ℕ} (hmu : 0 < mu) :
    arraySize base mu = ⌈(2 ^ base : ℝ) / mu⌉₊ := by
  have hpos : (0 : ℝ) < mu := Nat.cast_pos.mpr hmu
  apply le_antisymm
  · have hle := (div_le_iff₀ hpos).mp (Nat.le_ceil ((2 ^ base : ℝ) / mu))
    have hbound : 2 ^ base ≤ ⌈(2 ^ base : ℝ) / mu⌉₊ * mu := by exact_mod_cast hle
    rw [arraySize, ← Nat.lt_succ_iff]
    apply Nat.div_lt_of_lt_mul
    rw [Nat.succ_eq_add_one, Nat.mul_add, Nat.mul_comm mu]
    omega
  · apply Nat.ceil_le.mpr
    rw [div_le_iff₀ hpos]
    have hmod := Nat.div_add_mod (2 ^ base + mu - 1) mu
    have hlt := Nat.mod_lt (2 ^ base + mu - 1) hmu
    have hbound : 2 ^ base ≤ arraySize base mu * mu := by
      rw [arraySize, Nat.mul_comm]
      omega
    exact_mod_cast hbound

/-- The slot that `search` and `search_range_helper` compute for a subscript. -/
def searchSlot (p : Setup) (size i : ℕ) : Option (ℕ × ℕ) :=
  slot (prp p size) (baseOf p.log size) p.alpha i

theorem readSubscript_eq (p : Setup) (size i : ℕ) : readSubscript p size i = (do
    let bits ← orThrow .undefinedBehaviour (searchSlot p size i)
    let res ← onSubOram bits.1 (OramAccessController.obliviousAccess .read bits.2 [])
    let res ← orThrow .cipher (StringCipher.decryptSm4Ebc res p.secretKey)
    orThrow .malformed (ObjectArchive.documentCodec.deserialize res)) := rfl

variable {p : Setup} {n : ℕ}

theorem searchSlot_exists {i : ℕ} (ha : p.alpha ≤ baseOf p.log n) (hi : i < n) :
    ∃ s, searchSlot p n i = some s ∧ s.1 < 2 ^ p.alpha ∧
      s.2 < arraySize (baseOf p.log n) (2 ^ p.alpha) := by
  rw [two_pow_sub_le_arraySize ha]
  exact slot_exists p.randombytes p.secretKey ha hi

/-- Different subscripts have different slots, all of them in the arrays, and after the fill loop
the slot of a subscript holds the document of this subscript. -/
theorem placement_invertible (ha : p.alpha ≤ baseOf p.log n) :
    (∀ i < n, ∃ s, searchSlot p n i = some s ∧ s.1 < 2 ^ p.alpha ∧
      s.2 < arraySize (baseOf p.log n) (2 ^ p.alpha)) ∧
    (∀ i < n, ∀ j < n, searchSlot p n i = searchSlot p n j → i = j) ∧
    ∀ documents : List Document, documents.length = n → ∃ arrays,
      subArrays p documents = some arrays ∧
      ∀ i d, documents[i]? = some d → (searchSlot p n i).bind (getSlot arrays) = some d := by
  refine ⟨fun i hi => searchSlot_exists ha hi, ?_, ?_⟩
  · intro i hi j hj heq
    obtain ⟨s, hs, _⟩ := searchSlot_exists ha hi
    exact slot_inj hi hs (heq.symm.trans hs)
  · rintro documents rfl
    obtain ⟨arrays, harrays, hread⟩ := subArrays_exists ha
    refine ⟨arrays, harrays, ?_⟩
    intro i d hd
    obtain ⟨s, hs, hget⟩ := hread i d hd
    rw [searchSlot, hs]
    exact hget

theorem placement_invertible_four : ∃ arrays, subArrays
    ⟨1, .ideal, [], fun _ i => i, fun _ _ => ⟨blank 1 2 .new ⟨0, fun k => k, 0⟩, 0⟩⟩
      [⟨0, []⟩, ⟨1, []⟩, ⟨2, []⟩, ⟨3, []⟩] = some arrays := by
  have ha : 1 ≤ baseOf .ideal 4 := by decide
  obtain ⟨_, _, hfill⟩ := placement_invertible (n := 4)
    (p := ⟨1, .ideal, [], fun _ i => i, fun _ _ => ⟨blank 1 2 .new ⟨0, fun k => k, 0⟩, 0⟩⟩) ha
  obtain ⟨arrays, harrays, _⟩ := hfill [⟨0, []⟩, ⟨1, []⟩, ⟨2, []⟩, ⟨3, []⟩] rfl
  exact ⟨arrays, harrays⟩

/-- `base - alpha` on `unsigned int`. -/
def shiftAmount (base alpha : ℕ) : ℕ := (base + (2 ^ 32 - alpha)) % 2 ^ 32

/-- `get_bits` on `unsigned int`: a shift by more than 31 bits is undefined. -/
def getBitsUnsigned (base number alpha : ℕ) : Option (ℕ × ℕ) :=
  if shiftAmount base alpha ≤ 31 then
    some (number >>> shiftAmount base alpha, number &&& (2 ^ shiftAmount base alpha - 1))
  else none

/-- `pseudo_random_permutation` on `unsigned int`: an interval that does not fit is undefined. -/
def permutationUnsigned (log : CeilLog) (randombytes : Randombytes) (n : ℕ) (secretKey : Str) :
    Option (List ℕ) :=
  if 2 ^ baseOf log n < 2 ^ 32 then some (pseudoRandomPermutation log randombytes n secretKey)
  else none

/-- The address computation is defined for each of `n` rows, and its slot is in the arrays. -/
structure RowsHandled (log : CeilLog) (alpha n : ℕ) (randombytes : Randombytes)
    (secretKey : Str) : Prop where
  unwrapped : (shiftAmount (baseOf log n) alpha : ℤ) = baseOf log n - alpha
  shift : shiftAmount (baseOf log n) alpha ≤ 31
  slots : ∃ prp, permutationUnsigned log randombytes n secretKey = some prp ∧
    ∀ i < n, ∃ value s, prp[i]? = some value ∧
      getBitsUnsigned (baseOf log n) value alpha = some s ∧ s.1 < 2 ^ alpha ∧
      s.2 < arraySize (baseOf log n) (2 ^ alpha)

section Machine

variable {alpha base number : ℕ} {log : CeilLog} {randombytes : Randombytes} {secretKey : Str}

theorem shiftAmount_eq (ha : alpha ≤ base) (hb : base ≤ 31) :
    shiftAmount base alpha = base - alpha := by
  rw [shiftAmount]
  omega

theorem getBitsUnsigned_eq (ha : alpha ≤ base) (hb : base ≤ 31) :
    getBitsUnsigned base number alpha = getBits base number alpha := by
  rw [getBitsUnsigned, getBits, shiftAmount_eq ha hb, if_pos (by omega), if_neg (by omega)]

/-- The rows of a column are handled if and only if their number has at least as many bits as
that of the arrays, and no more than fit. -/
theorem rowsHandled_iff : RowsHandled log alpha n randombytes secretKey ↔
    alpha ≤ baseOf log n ∧ baseOf log n ≤ 31 := by
  constructor
  · rintro ⟨hexact, _, prp, hprp, _⟩
    constructor
    · omega
    · rw [permutationUnsigned] at hprp
      split at hprp
      · rename_i hlt
        exact Nat.lt_succ_iff.mp ((Nat.pow_lt_pow_iff_right (by decide)).mp hlt)
      · cases hprp
  · rintro ⟨ha, hb⟩
    have hinterval : 2 ^ baseOf log n < 2 ^ 32 :=
      Nat.pow_lt_pow_right (by decide) (by omega)
    have hshift := shiftAmount_eq ha hb
    refine ⟨by omega, by omega, _, if_pos hinterval, ?_⟩
    intro i hi
    obtain ⟨s, hs, h₁, h₂⟩ := slot_exists randombytes secretKey ha hi
    obtain ⟨value, hvalue, hbits⟩ := Option.bind_eq_some_iff.mp hs
    rw [two_pow_sub_le_arraySize ha]
    exact ⟨value, s, hvalue, (getBitsUnsigned_eq ha hb).trans hbits, h₁, h₂⟩

theorem two_rows_not_handled : ¬ RowsHandled .ideal 2 2 (fun _ i => i) [] := by
  intro h
  have hshift : shiftAmount (baseOf .ideal 2) 2 = 2 ^ 32 - 1 := by decide
  have hle := h.shift
  omega

end Machine

end Placement
