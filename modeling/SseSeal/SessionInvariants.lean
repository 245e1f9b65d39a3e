import SseSeal.OdictClient

/-! Invariants of a session. What every access of the session keeps is kept by the operations
of the tree, which reach the nodes by these accesses alone. -/
namespace SessionInvariants

open Bytes Objects StateExcept AvlTree OdictClient

variable {codec : Codec Node} {inv bad : Client → Prop} (hbad : ∀ c, inv c → bad c)
  (hods : ∀ op : OdictOperation, op.op ≠ .delete → Stable inv bad (odsAccess codec op))
include hbad hods

theorem readFromOram_stable (id : ℤ) : Stable inv bad (readFromOram codec id) := by
  apply (hods _ (by simp)).bind
  intro data
  exact stable_orThrow hbad _ _

omit hbad in
theorem writeToOram_stable (n : Node) : Stable inv bad (writeToOram codec n) := by
  apply (hods _ (by simp)).bind
  intro _
  exact stable_pure _

theorem rotateUp_stable (s : Side) (id : ℤ) : Stable inv bad (rotateUp codec s id) := by
  apply (readFromOram_stable hbad hods _).bind
  intro root
  apply (readFromOram_stable hbad hods _).bind
  intro child
  apply (writeToOram_stable hods _).bind
  intro _
  exact (writeToOram_stable hods _).bind fun _ => stable_pure _

theorem rotateTwice_stable (s : Side) (id : ℤ) : Stable inv bad (rotateTwice codec s id) := by
  apply (readFromOram_stable hbad hods _).bind
  intro root
  apply (rotateUp_stable hbad hods _ _).bind
  intro child
  exact (writeToOram_stable hods _).bind fun _ => rotateUp_stable hbad hods _ _

theorem balance_stable (id : ℤ) : Stable inv bad (OdictClient.balance codec id) := by
  apply (readFromOram_stable hbad hods _).bind
  intro root
  split
  · apply (readFromOram_stable hbad hods _).bind
    intro left
    split
    · exact rotateUp_stable hbad hods _ _
    · exact rotateTwice_stable hbad hods _ _
  · split
    · apply (readFromOram_stable hbad hods _).bind
      intro right
      split
      · exact rotateUp_stable hbad hods _ _
      · exact rotateTwice_stable hbad hods _ _
    · exact stable_pure _

theorem insertPriv_stable (n : Node) (fuel : ℕ) (id : ℤ) :
    Stable inv bad (insertPriv codec n fuel id) := by
  induction fuel generalizing id with
  | zero => exact stable_throw hbad _
  | succ fuel ih =>
    rw [insertPriv]
    split
    · exact (hods _ (by simp)).bind fun _ => stable_pure _
    · apply (readFromOram_stable hbad hods _).bind
      intro root
      split
      · apply (ih _).bind
        intro cur
        exact (writeToOram_stable hods _).bind fun _ => balance_stable hbad hods _
      · split
        · apply (ih _).bind
          intro cur
          exact (writeToOram_stable hods _).bind fun _ => balance_stable hbad hods _
        · exact (writeToOram_stable hods _).bind fun _ => balance_stable hbad hods _

theorem findPriv_stable (key : Str) (fuel : ℕ) (id : ℤ) :
    Stable inv bad (findPriv codec key fuel id) := by
  induction fuel generalizing id with
  | zero => exact stable_throw hbad _
  | succ fuel ih =>
    rw [findPriv]
    split
    · exact stable_pure _
    · apply (readFromOram_stable hbad hods _).bind
      intro root
      split
      · exact stable_pure _
      · split
        · exact ih _
        · exact ih _

theorem insertAll_stable (hroot : ∀ c id, inv c → inv { c with rootId := id }) (fuel : ℕ)
    (nodes : List Node) :
    Stable inv bad (nodes.forM fun node => do
      let res ← insertNode codec fuel node
      modify fun c => { c with rootId := res.id }) := by
  apply stable_forM
  intro n _
  have hinsert : Stable inv bad (insertNode codec fuel n) := by
    apply stable_get.bind
    intro c
    apply (insertPriv_stable hbad hods _ _ _).bind
    intro res
    refine .bind (stable_modify ?_) fun _ => stable_pure _
    intro c hc
    split
    · exact hroot c _ hc
    · exact hc
  apply hinsert.bind
  intro res
  exact stable_modify fun c hc => hroot c _ hc

end SessionInvariants
