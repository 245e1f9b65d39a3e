import SseSeal.StateExcept

/-! A program run on a state with faults, next to its run on the same state without them. Where
the faulty run returns, the other one returns the same; where it throws, the state it leaves is
related to the one it started from. -/
namespace FaultyRuns

open StateExcept

variable {ε σ α β : Type}

/-- `break` puts the faults into a state and `mend` takes them out. A run that returns changes
the state as `R` says, and one that throws as `Q` says. -/
def Tracks (breaks mends : σ → σ) (R Q : σ → σ → Prop) (x : EStateM ε σ α) : Prop :=
  ∀ s, Ends x (breaks s)
    (fun a u => ∃ t, u = breaks t ∧ x.run (mends s) = .ok a (mends t) ∧ R s t) fun _ u => Q s u

/-- Changes that can follow one another, and that a run which throws at once makes. -/
structure Closed (breaks : σ → σ) (R Q : σ → σ → Prop) : Prop where
  refl : ∀ s, R s s
  trans : ∀ s t u, R s t → R t u → R s u
  stays : ∀ s, Q s (breaks s)
  after : ∀ s t u, R s t → Q t u → Q s u

variable {g h : σ → σ} {R Q R₁ R₂ Q₁ Q₂ : σ → σ → Prop} {s u : σ}

theorem Tracks.of_ok {x : EStateM ε σ α} {a : α} (hx : Tracks g h R Q x)
    (hrun : x.run (g s) = .ok a u) : ∃ t, u = g t ∧ x.run (h s) = .ok a (h t) ∧ R s t :=
  (hx s).post_of_ok hrun

theorem Tracks.of_error {x : EStateM ε σ α} {e : ε} (hx : Tracks g h R Q x)
    (hrun : x.run (g s) = .error e u) : Q s u := (hx s).bad_of_error hrun

/-- A faulty run that returns satisfies what holds of the run without faults. -/
theorem Tracks.returns {x : EStateM ε σ α} {a : α} {post : α → σ → Prop} (hx : Tracks g h R Q x)
    (hpost : Returns x (h s) post) (hrun : x.run (g s) = .ok a u) :
    ∃ t, u = g t ∧ post a (h t) ∧ R s t := by
  obtain ⟨t, hu, hok, hR⟩ := hx.of_ok hrun
  obtain ⟨b, v, hrun', hb⟩ := hpost
  cases hok.symm.trans hrun'
  exact ⟨t, hu, hb, hR⟩

theorem Tracks.imp {x : EStateM ε σ α} (hx : Tracks g h R₁ Q₁ x) (hR : ∀ s t, R₁ s t → R s t)
    (hQ : ∀ s u, Q₁ s u → Q s u) : Tracks g h R Q x := by
  intro s
  apply (hx s).imp
  · intro a u hu
    obtain ⟨t, hu, hok, ht⟩ := hu
    exact ⟨t, hu, hok, hR s t ht⟩
  · intro _ u hu
    exact hQ s u hu

/-- A fact about the runs without faults joins what is known of the change. -/
theorem Tracks.strengthen {x : EStateM ε σ α} (hx : Tracks g h R₁ Q x)
    (hR : ∀ s t a, R₁ s t → x.run (h s) = .ok a (h t) → R s t) : Tracks g h R Q x := by
  intro s
  apply (hx s).imp
  · intro a u hu
    obtain ⟨t, hu, hok, ht⟩ := hu
    exact ⟨t, hu, hok, hR s t a ht hok⟩
  · exact fun _ _ hu => hu

theorem tracks_pure {a : α} (hR : ∀ s, R s s) :
    Tracks g h R Q (pure a : EStateM ε σ α) :=
  fun s => ends_ok rfl ⟨s, rfl, rfl, hR s⟩

theorem tracks_throw {e : ε} (hQ : ∀ s, Q s (g s)) :
    Tracks g h R Q (throw e : EStateM ε σ α) := fun s => ends_error rfl (hQ s)

theorem tracks_orThrow (hc : Closed g R Q) {e : ε} {o : Option α} :
    Tracks g h R Q (orThrow e o) := by
  cases o with
  | none => exact fun s => ends_error rfl (hc.stays s)
  | some a => exact fun s => ends_ok rfl ⟨s, rfl, rfl, hc.refl s⟩

theorem tracks_modify {f : σ → σ} (hg : ∀ s, f (g s) = g (f s)) (hh : ∀ s, f (h s) = h (f s))
    (hR : ∀ s, R s (f s)) : Tracks g h R Q (modify f : EStateM ε σ PUnit) := by
  intro s
  apply ends_ok (run_modify f (g s))
  exact ⟨f s, hg s, (run_modify f (h s)).trans (congrArg _ (hh s)), hR s⟩

theorem Tracks.andThen {x : EStateM ε σ α} {f : α → EStateM ε σ β} (hx : Tracks g h R₁ Q₁ x)
    (hf : ∀ a, Tracks g h R₂ Q₂ (f a)) (hR : ∀ s t u, R₁ s t → R₂ t u → R s u)
    (hQ : ∀ s u, Q₁ s u → Q s u) (hRQ : ∀ s t u, R₁ s t → Q₂ t u → Q s u) :
    Tracks g h R Q (x >>= f) := by
  intro s
  apply Ends.bind ((hx s).imp (fun _ _ hu => hu) fun _ u hu => hQ s u hu)
  intro a _ ht
  obtain ⟨t, rfl, hok, ht⟩ := ht
  apply (hf a t).imp
  · intro b v hv
    obtain ⟨v, hv, hok', htv⟩ := hv
    exact ⟨v, hv, (run_bind_ok hok).trans hok', hR s t v ht htv⟩
  · intro _ v hv
    exact hRQ s t v ht hv

theorem Tracks.bind (hc : Closed g R Q) {x : EStateM ε σ α} {f : α → EStateM ε σ β}
    (hx : Tracks g h R Q x) (hf : ∀ a, Tracks g h R Q (f a)) : Tracks g h R Q (x >>= f) :=
  hx.andThen hf hc.trans (fun _ _ hu => hu) hc.after

theorem tracks_get {f : σ → EStateM ε σ β} (hsame : ∀ s, f (h s) = f (g s))
    (hf : ∀ s, Tracks g h R Q (f (g s))) : Tracks g h R Q (get >>= f) := by
  intro s
  apply returns_get.ends.bind
  intro _ _ ht
  obtain ⟨rfl, rfl⟩ := ht
  apply (hf s s).imp
  · intro b v hv
    obtain ⟨v, hv, hok, hR⟩ := hv
    refine ⟨v, hv, ?_, hR⟩
    rw [run_bind_ok (run_get (h s)), hsame]
    exact hok
  · exact fun _ _ hu => hu

theorem tracks_forM (hc : Closed g R Q) {body : α → EStateM ε σ PUnit}
    (hbody : ∀ a, Tracks g h R Q (body a)) (l : List α) : Tracks g h R Q (l.forM body) := by
  induction l with
  | nil => exact tracks_pure hc.refl
  | cons a l ih => exact (hbody a).bind hc fun _ => ih

section Focus

variable {ε' τ : Type} {g' h' : τ → τ} {R' Q' : τ → τ → Prop} {view : σ → τ} {put : τ → σ → σ}
  {wrap : ε' → ε}

theorem Tracks.focus {x : EStateM ε' τ α} (hx : Tracks g' h' R' Q' x)
    (hg : ∀ s, view (g s) = g' (view s)) (hh : ∀ s, view (h s) = h' (view s))
    (hgp : ∀ s t, put (g' t) (g s) = g (put t s)) (hhp : ∀ s t, put (h' t) (h s) = h (put t s))
    (hR : ∀ s t, R' (view s) t → R s (put t s))
    (hQ : ∀ s t, Q' (view s) t → Q s (put t (g s))) :
    Tracks g h R Q (StateExcept.focus view put wrap x) := by
  intro s
  have hends := hx (view s)
  rw [← hg] at hends
  apply (hends.focus view put wrap).imp
  · intro a u hu
    obtain ⟨_, ⟨t, rfl, hok, ht⟩, rfl⟩ := hu
    refine ⟨put t s, hgp s t, ?_, hR s t ht⟩
    change StateExcept.focus view put wrap x (h s) = .ok a (h (put t s))
    rw [StateExcept.focus, hh, hok, ← hhp]
  · intro _ u hu
    obtain ⟨_, t, ht, _, rfl⟩ := hu
    exact hQ s t ht

end Focus

end FaultyRuns
