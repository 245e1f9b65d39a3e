import SseSeal.PaddedMemory
import Mathlib.Analysis.SpecialFunctions.Log.Base

/-! The counts that `adj_padding` leaves, against the memory that it leaves: the loop that pads a
keyword makes one entry more than the count says. -/
namespace CountTable

open Bytes ComputedLog Objects SortedMap Padding PaddedMemory

/-- The padded size is the power of the source, for exact logarithms. -/
theorem paddedSize_eq_pow_ceil (x c : ℕ) :
    paddedSize .ideal x c = x ^ ⌈Real.log c / Real.log x⌉₊ := by
  have hlog := Real.natCeil_logb_natCast x c
  rw [Real.logb] at hlog
  rw [hlog]
  rfl

/-- The counts are those of the padded memory, in which each keyword occurs as often as the power
that its count is padded to, and which keeps all entries. -/
structure CountsMatch (log : CeilLog) (x : ℕ) (memory : Memory) (r : Padded × Dict Str ℕ) :
    Prop where
  counted : ∀ w c, r.2.find? w = some c → c = (keys r.1.memory).count w
  powers : ∀ w ∈ keys memory, (∀ b ∈ fillers log x memory r.1, b.1 ≠ w) →
    (keys r.1.memory).count w = paddedSize log x ((keys memory).count w)
  kept : ∃ added, r.1.memory = memory ++ added

variable {log : CeilLog} {x : ℕ} {secretKey : Str} {memory : Memory} {e : Entropy}
  {r : Padded × Dict Str ℕ}

theorem adjPadding_nil (h : adjPadding log x secretKey [] (countTable []) e = some r) :
    ∃ w d, r.1.memory = [(w, d)] ∧ r.2.find? w = some 1 ∧
      ∀ v, v ≠ w → r.2.find? v = none := by
  obtain ⟨w, d, _, _, hmemory, hcount⟩ := pushFiller_eq secretKey (⟨[], e⟩, (.empty : Dict Str ℕ))
  have hr : r = pushFiller secretKey (⟨[], e⟩, .empty) := by
    cases h
    rfl
  rw [hr]
  refine ⟨w, d, hmemory, ?_, ?_⟩
  · rw [hcount, Dict.find?_alter_self]
    rfl
  · intro v hv
    rw [hcount, Dict.find?_alter_of_ne hv]
    rfl

/-- The counts match the padded memory if and only if there was nothing to pad. -/
theorem countsMatch_iff (hx : 2 ≤ x)
    (h : adjPadding log x secretKey memory (countTable memory) e = some r) :
    CountsMatch log x memory r ↔ memory = [] := by
  constructor
  · intro hmatch
    by_contra hne
    obtain ⟨b, rest, rfl⟩ := List.exists_cons_of_ne_nil hne
    obtain ⟨c, hc, hoccurs⟩ := (adjPadding_aligned hx h).extra b.1 (by simp [keys])
    have hcounted := hmatch.counted b.1 c hc
    omega
  · rintro rfl
    obtain ⟨w, d, hmemory, hw, hother⟩ := adjPadding_nil h
    constructor
    · intro v c hv
      by_cases hvw : v = w
      · subst hvw
        rw [hw] at hv
        cases hv
        simp [hmemory, keys]
      · rw [hother v hvw] at hv
        cases hv
    · intro v hv
      cases hv
    · exact ⟨_, (List.nil_append _).symm⟩

theorem countsMatch_iff_nil : ∃ r,
    adjPadding .ideal 2 [] [] (countTable []) ⟨fun _ => 0, 0, fun _ => 0, 0⟩ = some r ∧
      CountsMatch .ideal 2 [] r := by
  have hr : ∃ r, adjPadding .ideal 2 [] [] (countTable []) ⟨fun _ => 0, 0, fun _ => 0, 0⟩ =
      some r := ⟨_, rfl⟩
  obtain ⟨r, hr⟩ := hr
  exact ⟨r, hr, (countsMatch_iff (by decide) hr).mpr rfl⟩

theorem one_pair_counted_short : ∃ r,
    adjPadding .ideal 2 [] [([97], ⟨0, []⟩)] (countTable [([97], ⟨0, []⟩)])
      ⟨fun _ => 0, 0, fun _ => 0, 0⟩ = some r ∧
      r.2.find? [97] = some 1 ∧ (keys r.1.memory).count [97] = 2 ∧
      ¬ CountsMatch .ideal 2 [([97], ⟨0, []⟩)] r := by
  refine ⟨_, rfl, by decide +kernel, by decide +kernel, ?_⟩
  intro hmatch
  have hcounted := hmatch.counted [97] 1 (by decide +kernel)
  revert hcounted
  decide +kernel

end CountTable
