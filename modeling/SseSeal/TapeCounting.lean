import Mathlib.Data.Fintype.Card
import Mathlib.Data.Fintype.Pi
import Mathlib.Logic.Equiv.Fintype

/-! Observations of a random tape that read each of their entries once. How many tapes
produce an observation does not depend on which entries are read. -/
namespace TapeCounting

variable {ι κ α τ : Type*} {j₁ j₂ : ι → κ}

/-- Two injective choices of entries are the same up to a permutation of the tape. -/
theorem exists_reordering [Finite ι] (h₁ : Function.Injective j₁) (h₂ : Function.Injective j₂) :
    ∃ e : (κ → α) ≃ (κ → α), ∀ tape, e tape ∘ j₁ = tape ∘ j₂ := by
  obtain ⟨σ, hσ⟩ := Equiv.Perm.exists_extending_pair j₁ j₂ h₁ h₂
  refine ⟨Equiv.arrowCongr σ.symm (Equiv.refl α), ?_⟩
  intro tape
  ext a
  simp [hσ]

theorem card_observation [Finite ι] [Fintype κ] [DecidableEq κ] [Fintype α] [DecidableEq τ]
    (observe : (ι → α) → τ) (t : τ) (h₁ : Function.Injective j₁) (h₂ : Function.Injective j₂) :
    Fintype.card {tape : κ → α // observe (tape ∘ j₁) = t} =
      Fintype.card {tape : κ → α // observe (tape ∘ j₂) = t} := by
  obtain ⟨e, he⟩ := exists_reordering (α := α) h₁ h₂
  apply Fintype.card_congr
  refine (e.subtypeEquiv ?_).symm
  intro tape
  rw [he tape]

theorem entry_eq [DecidableEq κ] [Nontrivial α] {a b : κ} (h : ∀ tape : κ → α, tape a = tape b) :
    a = b := by
  by_contra hne
  obtain ⟨x, y, hxy⟩ := exists_pair_ne α
  have := h (Function.update (fun _ => y) a x)
  simp [Function.update_of_ne (Ne.symm hne)] at this
  exact hxy this

end TapeCounting
