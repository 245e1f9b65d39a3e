import SseSeal.OramAccessController
import Mathlib.Logic.Relation

/-! The addresses at which an oblivious memory is accessed. The memory never refuses one, so an
address that it has no room for shows only in what it holds afterwards. -/
namespace AddressTrace

open Bytes Objects StateExcept KeyedMultiset OramReadPathEviction OramBlocks OramCalls OramMemory
open OramAccessController

/-- What a client can do with a controller, if it accesses only the addresses of `A`. -/
inductive Access (codec : Codec Node) (A : Set ℤ) (k k' : Controller) : Prop where
  | access (op : OramAccessOp) (address : ℤ) (data : Str) (hA : address ∈ A)
      (h : Leads (obliviousAccess op address data) k k')
  | direct (op : OramAccessOp) (node : Node) (hA : node.id ∈ A)
      (h : Leads (obliviousAccessDirect codec op (codec.serialize node)) k k')
  | draw (h : Leads randomNewPos k k')

/-- `k'` is left by accesses of `k` at addresses of `A` only. -/
def Uses (codec : Codec Node) (A : Set ℤ) : Controller → Controller → Prop :=
  Relation.ReflTransGen (Access codec A)

def addressesOf (k : Controller) : Set ℤ := {a | 0 ≤ a ∧ a < k.oram.numBlocks}

variable {codec : Codec Node} {A B : Set ℤ} {k k' k'' : Controller} {m m' : ℤ → Option Str}
  {i : ℤ} {op : OramAccessOp} {data : Str} {n : Node}

theorem Access.mono (h : Access codec A k k') (hsub : A ⊆ B) : Access codec B k k' := by
  cases h with
  | access op address data hA h => exact .access op address data (hsub hA) h
  | direct op node hA h => exact .direct op node (hsub hA) h
  | draw h => exact .draw h

theorem Uses.refl (codec : Codec Node) (A : Set ℤ) (k : Controller) : Uses codec A k k :=
  Relation.ReflTransGen.refl

theorem Uses.tail (h : Uses codec A k k') (h' : Access codec A k' k'') : Uses codec A k k'' :=
  Relation.ReflTransGen.tail h h'

theorem Uses.trans (h : Uses codec A k k') (h' : Uses codec A k' k'') : Uses codec A k k'' :=
  Relation.ReflTransGen.trans h h'

theorem Uses.mono (h : Uses codec A k k') (hsub : A ⊆ B) : Uses codec B k k' :=
  Relation.ReflTransGen.mono (fun _ _ h => h.mono hsub) _ _ h

theorem stable_of_access {α : Type} {x : ControllerM α} (k₀ : Controller)
    (h : ∀ k k', Leads x k k' → Access codec A k k') :
    Stable (Uses codec A k₀) (Uses codec A k₀) x := by
  intro k hk
  apply (leads_ends x k).imp
  · intro _ k' hleads
    exact hk.tail (h k k' hleads)
  · intro _ k' hleads
    exact hk.tail (h k k' hleads)

theorem access_stable (k₀ : Controller) (hA : i ∈ A) :
    Stable (Uses codec A k₀) (Uses codec A k₀) (obliviousAccess op i data) :=
  stable_of_access k₀ fun _ _ h => .access op i data hA h

theorem direct_stable (k₀ : Controller) (hA : n.id ∈ A) : Stable (Uses codec A k₀)
    (Uses codec A k₀) (obliviousAccessDirect codec op (codec.serialize n)) :=
  stable_of_access k₀ fun _ _ h => .direct op n hA h

theorem randomNewPos_stable (k₀ : Controller) :
    Stable (Uses codec A k₀) (Uses codec A k₀) randomNewPos :=
  stable_of_access k₀ fun _ _ h => .draw h

theorem Serves.unique (h : Serves k m) (h' : Serves k m') : m = m' := by
  funext i
  obtain ⟨_, hblocks, _⟩ := h.holds
  obtain ⟨_, hblocks', _⟩ := h'.holds
  cases hm : m i with
  | some s =>
    obtain ⟨b, hb, rfl⟩ := hblocks.present i s hm
    rw [← hm, hblocks.value b hb, hblocks'.value b hb]
  | none =>
    refine (hblocks'.absent ?_).symm
    intro b hb hstep
    subst hstep
    rw [hblocks.value b hb] at hm
    cases hm

theorem issue_serves (codec : Codec Node) {access : Operation → OramM Str}
    (call : Operation → Call) (hs : Serves k m) (hop : ∀ o, (call o).op = o)
    (hindex : ∀ o, ((call o).index : ℤ) = i) (hrange : ∀ o, (call o).InRange)
    (hrun : ∀ o, access o = (call o).run codec) (h : Leads (issue op access) k k') :
    ∃ m', Serves k' m' ∧ ∀ j, m' j ≠ none → j = i ∨ m j ≠ none := by
  cases hdeduct : deductOperation op with
  | none =>
    rw [issue, hdeduct] at h
    rcases h with ⟨_, h⟩ | ⟨_, h⟩
    · cases h
    · cases h
      exact ⟨m, hs, fun _ => Or.inr⟩
  | some o =>
    have hdeduct' : deductOperation op = some (call o).op := by rw [hdeduct, hop]
    have hrun' : access (call o).op = (call o).run codec := by rw [hop, hrun]
    obtain ⟨_, _, hserves, _⟩ :=
      (issue_returns codec hs (call o) (hrange o) hdeduct' hrun').of_leads h
    refine ⟨_, hserves, ?_⟩
    intro j hj
    by_cases hji : j = i
    · exact Or.inl hji
    · rw [store, hop] at hj
      cases o with
      | read => exact Or.inr hj
      | write =>
        simp only [hindex, Function.update_of_ne hji] at hj
        exact Or.inr hj

theorem Access.serves (hA : ∀ a ∈ A, 0 ≤ a ∧ a < 2 ^ 31) (h : Access codec A k k')
    (hs : Serves k m) : ∃ m', Serves k' m' ∧ ∀ i, m' i ≠ none → i ∈ A ∨ m i ≠ none := by
  cases h with
  | access op address data hmem h =>
    have hi := hA _ hmem
    obtain ⟨m', hserves, hm'⟩ := issue_serves codec
      (fun o => .access o (toUnsigned address) data) hs (fun _ => rfl)
      (fun _ => toUnsigned_cast hi) (fun o => access_inRange hi o data) (fun _ => rfl) h
    refine ⟨m', hserves, fun i hne => (hm' i hne).imp_left ?_⟩
    rintro rfl
    exact hmem
  | direct op node hmem h =>
    have hi := hA _ hmem
    obtain ⟨m', hserves, hm'⟩ := issue_serves codec
      (fun o => .direct o node) hs (fun _ => rfl) (fun _ => toUnsigned_cast hi)
      (fun _ => hi) (fun _ => rfl) h
    refine ⟨m', hserves, fun i hne => (hm' i hne).imp_left ?_⟩
    rintro rfl
    exact hmem
  | draw h =>
    obtain ⟨_, hserves, _⟩ := (randomNewPos_returns hs).of_leads h
    exact ⟨m, hserves, fun _ => Or.inr⟩

theorem Uses.serves (hA : ∀ a ∈ A, 0 ≤ a ∧ a < 2 ^ 31) (h : Uses codec A k k')
    (hs : Serves k m) : ∃ m', Serves k' m' ∧ ∀ i, m' i ≠ none → i ∈ A ∨ m i ≠ none := by
  induction h with
  | refl => exact ⟨m, hs, fun _ => Or.inr⟩
  | tail _ hstep ih =>
    obtain ⟨m₁, hserves₁, hm₁⟩ := ih
    obtain ⟨m₂, hserves₂, hm₂⟩ := hstep.serves hA hserves₁
    exact ⟨m₂, hserves₂, fun i hne => (hm₂ i hne).elim Or.inl (hm₁ i)⟩

theorem Uses.held (hA : ∀ a ∈ A, 0 ≤ a ∧ a < 2 ^ 31) (h : Uses codec A k k')
    (hs : Serves k fun _ => none) (hs' : Serves k' m') (hi : m' i ≠ none) : i ∈ A := by
  obtain ⟨m, hserves, hm⟩ := h.serves hA hs
  rw [Serves.unique hs' hserves] at hi
  exact (hm i hi).resolve_right fun hne => hne rfl

end AddressTrace
