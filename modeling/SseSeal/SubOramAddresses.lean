import SseSeal.AddressTrace
import SseSeal.SubOrams

/-! The addresses of the sub-ORAMs. The arrays of a sequence decide them when they are written,
and the lower bits of a value of the permutation when they are read. -/
namespace SubOramAddresses

open Bytes Objects StateExcept OramAccessController SubArrays SubOrams AddressTrace

variable {codec : Codec Node} {p : Setup} {mapKey : Str} {A : Set ℤ} {ks : List Controller}
  {docs : List Document} {n : ℕ}

def slotAddresses (p : Setup) (size : ℕ) : Set ℤ :=
  {a | 0 ≤ a ∧ a < 2 ^ (baseOf p.log size - p.alpha)}

/-- Each sub-ORAM was used at addresses of `A` since it was made. -/
def AllUse (codec : Codec Node) (p : Setup) (mapKey : Str) (A : Set ℤ) (ks : List Controller) :
    Prop :=
  ∀ (i : ℕ) k, ks[i]? = some k → Uses codec A (p.newController mapKey i) k

theorem AllUse.concat (h : AllUse codec p mapKey A ks) :
    AllUse codec p mapKey A (ks ++ [p.newController mapKey ks.length]) := by
  intro i k hk
  by_cases hi : i < ks.length
  · rw [List.getElem?_append_left hi] at hk
    exact h i k hk
  · have hlt := (List.getElem?_eq_some_iff.mp hk).1
    rw [List.length_append, List.length_singleton] at hlt
    obtain rfl : i = ks.length := by omega
    rw [List.getElem?_concat_length, Option.some.injEq] at hk
    rw [hk]
    exact Uses.refl codec A k

structure Made (codec : Codec Node) (p : Setup) (mapKey : Str) (A : Set ℤ) (n : ℕ)
    (ks : List Controller) : Prop where
  uses : AllUse codec p mapKey A ks
  length : ks.length = n

theorem onSubOram_made {op : OramAccessOp} {address : ℤ} {data : Str} (hA : address ∈ A)
    (i : ℕ) : Stable (Made codec p mapKey A n) (Made codec p mapKey A n)
      (onSubOram i (obliviousAccess op address data)) := by
  intro ks hks
  have hset : ∀ k k', ks[i]? = some k → Leads (obliviousAccess op address data) k k' →
      Made codec p mapKey A n (ks.set i k') := by
    intro k k' hk hleads
    refine ⟨?_, (List.length_set ..).trans hks.length⟩
    intro j c hc
    by_cases hji : j = i
    · subst hji
      rw [List.getElem?_set_self (List.getElem?_eq_some_iff.mp hk).1, Option.some.injEq] at hc
      subst hc
      exact (access_stable _ hA).of_leads hleads (hks.uses j k hk)
    · rw [List.getElem?_set_ne (Ne.symm hji)] at hc
      exact hks.uses j c hc
  cases hk : ks[i]? with
  | none =>
    refine ends_error (e := .undefinedBehaviour) ?_ hks
    change onSubOram i _ ks = _
    simp only [onSubOram, hk]
  | some k =>
    cases hrun : (obliviousAccess op address data).run k with
    | ok a k' =>
      refine ends_ok (a := a) ?_ (hset k k' hk (Or.inl ⟨a, hrun⟩))
      change onSubOram i _ ks = _
      simp only [onSubOram, hk, hrun]
    | error e k' =>
      refine ends_error (e := .access e) ?_ (hset k k' hk (Or.inr ⟨e, hrun⟩))
      change onSubOram i _ ks = _
      simp only [onSubOram, hk, hrun]

theorem writeArray_made {array : List Document} (i j : ℕ)
    (hA : ∀ j' < j + array.length, (j' : ℤ) ∈ A) :
    Stable (Made codec p mapKey A n) (Made codec p mapKey A n) (writeArray p i j array) := by
  induction array generalizing j with
  | nil => exact stable_pure _
  | cons doc array ih =>
    rw [List.length_cons] at hA
    apply (stable_orThrow (fun _ h => h) _ _).bind
    intro data
    apply (onSubOram_made (hA j (by omega)) i).bind
    intro _
    exact ih (j + 1) fun j' hj' => hA j' (by omega)

theorem initArrays_uses {arrays : List (List Document)}
    (hA : ∀ a ∈ arrays, ∀ j < a.length, (j : ℤ) ∈ A) (hks : Made codec p mapKey A n ks) :
    Ends (initArrays p mapKey n arrays) ks
      (fun _ => Made codec p mapKey A (n + arrays.length))
      fun _ ks' => AllUse codec p mapKey A ks' := by
  induction arrays generalizing n ks with
  | nil => exact ends_ok rfl hks
  | cons array arrays ih =>
    apply returns_modify.ends.bind
    intro _ ks₁ hpost
    subst hpost
    have hmade : Made codec p mapKey A (n + 1) (ks ++ [p.newController mapKey n]) := by
      have hconcat := hks.uses.concat
      rw [hks.length] at hconcat
      refine ⟨hconcat, ?_⟩
      rw [List.length_append, List.length_singleton, hks.length]
    have hwrite : Stable (Made codec p mapKey A (n + 1)) (Made codec p mapKey A (n + 1))
        (writeArray p n 0 array) :=
      writeArray_made n 0 fun j hj => hA array List.mem_cons_self j (by omega)
    apply ((hwrite _ hmade).imp (fun _ _ h => h) fun _ _ h => h.uses).bind
    intro _ ks₂ hks₂
    have hrest := ih (fun a ha => hA a (List.mem_cons_of_mem _ ha)) hks₂
    rwa [Nat.add_right_comm, Nat.add_assoc] at hrest

theorem logged_uses {x : SubOramM PUnit} (hx : Ends x ks (fun _ => AllUse codec p mapKey A)
    fun _ => AllUse codec p mapKey A) : Ends (logged x) ks (fun _ => AllUse codec p mapKey A)
      fun _ => AllUse codec p mapKey A := by
  rcases hx with ⟨a, ks', hrun, ha⟩ | ⟨e, ks', hrun, he⟩
  · refine ends_ok (a := a) ?_ ha
    change logged x ks = _
    simp only [logged, hrun]
  · cases e with
    | undefinedBehaviour =>
      refine ends_error (e := .undefinedBehaviour) ?_ he
      change logged x ks = _
      simp only [logged, hrun]
    | access | cipher | malformed =>
      refine ends_ok (a := ⟨⟩) ?_ he
      change logged x ks = _
      simp only [logged, hrun]

theorem adjOramInit_uses (halpha : p.alpha ≤ baseOf p.log docs.length) (hks : ks = []) :
    Ends (adjOramInit p mapKey docs) ks
      (fun _ => AllUse codec p mapKey (slotAddresses p docs.length))
      fun _ => AllUse codec p mapKey (slotAddresses p docs.length) := by
  subst hks
  have hnone : AllUse codec p mapKey (slotAddresses p docs.length) [] := fun i k hk => by cases hk
  rw [adjOramInit_eq]
  cases harrays : subArrays p docs with
  | none => exact ends_error (run_bind_error rfl) hnone
  | some arrays =>
    have hA : ∀ a ∈ arrays, ∀ j < a.length, (j : ℤ) ∈ slotAddresses p docs.length := by
      intro a ha j hj
      rw [(subArrays_shape harrays).2 a ha, two_pow_sub_le_arraySize halpha] at hj
      exact ⟨Int.natCast_nonneg _, by exact_mod_cast hj⟩
    change Ends (adjOramInitHelper p mapKey arrays) [] _ _
    apply logged_uses
    exact (initArrays_uses hA ⟨hnone, rfl⟩).imp (fun _ _ h => h.uses) fun _ _ h => h

theorem slot_lt {prp : List ℕ} {base alpha i : ℕ} {bits : ℕ × ℕ}
    (h : slot prp base alpha i = some bits) : bits.2 < 2 ^ (base - alpha) := by
  obtain ⟨value, _, h⟩ := Option.bind_eq_some_iff.mp h
  rw [getBits] at h
  split at h
  · cases h
  · cases h
    rw [Nat.and_two_pow_sub_one_eq_mod]
    exact Nat.mod_lt _ (Nat.two_pow_pos _)

theorem readSubscript_uses {size i : ℕ} (hA : slotAddresses p size ⊆ A) :
    Stable (AllUse codec p mapKey A) (AllUse codec p mapKey A) (readSubscript p size i) := by
  apply stable_orThrow_bind fun _ h => h
  intro bits hbits
  have hmem : (bits.2 : ℤ) ∈ A := by
    apply hA
    have hlt := slot_lt hbits
    exact ⟨Int.natCast_nonneg _, by exact_mod_cast hlt⟩
  have haccess : Stable (AllUse codec p mapKey A) (AllUse codec p mapKey A)
      (onSubOram bits.1 (obliviousAccess .read bits.2 [])) := by
    intro ks hks
    exact (onSubOram_made hmem bits.1 ks ⟨hks, rfl⟩).imp (fun _ _ h => h.uses) fun _ _ h => h.uses
  apply haccess.bind
  intro res
  apply (stable_orThrow (fun _ h => h) _ _).bind
  intro res
  exact stable_orThrow (fun _ h => h) _ _

end SubOramAddresses
