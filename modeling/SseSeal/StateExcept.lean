import Mathlib.Data.List.Basic

/-! Programs with a mutable state that survives a thrown exception, as an
`EStateM`. The rules split a run at its binds and relate a loop over a list
to the fold of its successful iterations. -/
namespace StateExcept

variable {ε σ α β : Type}

@[simp] theorem run_pure (a : α) (s : σ) : (pure a : EStateM ε σ α).run s = .ok a s := rfl

@[simp] theorem run_get (s : σ) : (get : EStateM ε σ σ).run s = .ok s s := rfl

@[simp] theorem run_set (s t : σ) : (set t : EStateM ε σ PUnit).run s = .ok ⟨⟩ t := rfl

@[simp] theorem run_modify (f : σ → σ) (s : σ) :
    (modify f : EStateM ε σ PUnit).run s = .ok ⟨⟩ (f s) := rfl

@[simp] theorem run_throw (e : ε) (s : σ) :
    (throw e : EStateM ε σ α).run s = .error e s := rfl

theorem run_bind_ok {x : EStateM ε σ α} {f : α → EStateM ε σ β} {s t : σ} {a : α}
    (h : x.run s = .ok a t) : (x >>= f).run s = (f a).run t := by
  change EStateM.bind x f s = f a t
  have h' : x s = .ok a t := h
  simp only [EStateM.bind, h']

theorem run_bind_error {x : EStateM ε σ α} {f : α → EStateM ε σ β} {s t : σ} {e : ε}
    (h : x.run s = .error e t) : (x >>= f).run s = .error e t := by
  change EStateM.bind x f s = .error e t
  have h' : x s = .error e t := h
  simp only [EStateM.bind, h']

theorem bind_ok {x : EStateM ε σ α} {f : α → EStateM ε σ β} {s u : σ} {b : β}
    (h : (x >>= f).run s = .ok b u) :
    ∃ a t, x.run s = .ok a t ∧ (f a).run t = .ok b u := by
  cases hx : x.run s with
  | ok a t => exact ⟨a, t, rfl, (run_bind_ok hx).symm.trans h⟩
  | error e t => rw [run_bind_error hx] at h; cases h

theorem bind_error {x : EStateM ε σ α} {f : α → EStateM ε σ β} {s u : σ} {e : ε}
    (h : (x >>= f).run s = .error e u) :
    x.run s = .error e u ∨ ∃ a t, x.run s = .ok a t ∧ (f a).run t = .error e u := by
  cases hx : x.run s with
  | ok a t => exact Or.inr ⟨a, t, rfl, (run_bind_ok hx).symm.trans h⟩
  | error e' t =>
    rw [run_bind_error hx] at h
    cases h
    exact Or.inl rfl

section Loops

variable (body : α → EStateM ε σ PUnit) (step : α → σ → σ)

theorem forM_run {G : σ → Prop} {l : List α}
    (h : ∀ a ∈ l, ∀ s, G s → (body a).run s = .ok ⟨⟩ (step a s) ∧ G (step a s))
    {s : σ} (hs : G s) :
    (l.forM body).run s = .ok ⟨⟩ (l.foldl (fun s a => step a s) s) ∧
      G (l.foldl (fun s a => step a s) s) := by
  induction l generalizing s with
  | nil => exact ⟨rfl, hs⟩
  | cons a l ih =>
    obtain ⟨ha, hg⟩ := h a List.mem_cons_self s hs
    obtain ⟨hl, hg'⟩ := ih (fun b hb => h b (List.mem_cons_of_mem _ hb)) hg
    exact ⟨(run_bind_ok ha).trans hl, hg'⟩

theorem forM_ok_foldl {G : σ → Prop} {l : List α}
    (h : ∀ a ∈ l, ∀ s t, G s → (body a).run s = .ok ⟨⟩ t → t = step a s ∧ G t) {s t : σ}
    (hs : G s) (hl : (l.forM body).run s = .ok ⟨⟩ t) :
    t = l.foldl (fun s a => step a s) s := by
  induction l generalizing s with
  | nil =>
    cases hl
    rfl
  | cons a l ih =>
    obtain ⟨_, u, ha, hl⟩ := bind_ok hl
    obtain ⟨hstep, hu⟩ := h a List.mem_cons_self s u hs ha
    rw [ih (fun b hb => h b (List.mem_cons_of_mem _ hb)) hu hl, hstep]
    rfl

variable {body}

/-- A loop that throws does so in one iteration, after a successful prefix. -/
theorem forM_error {l : List α} {s u : σ} {e : ε} (hl : (l.forM body).run s = .error e u) :
    ∃ pre a post t, l = pre ++ a :: post ∧ (pre.forM body).run s = .ok ⟨⟩ t ∧
      (body a).run t = .error e u := by
  induction l generalizing s with
  | nil => cases hl
  | cons a l ih =>
    rcases bind_error hl with ha | ⟨_, t, ha, hl⟩
    · exact ⟨[], a, l, s, rfl, rfl, ha⟩
    · obtain ⟨pre, b, post, v, rfl, hp, hb⟩ := ih hl
      exact ⟨a :: pre, b, post, v, rfl, (run_bind_ok ha).trans hp, hb⟩

end Loops

/-- The program returns, with a result and a state of which `post` holds. -/
def Returns (x : EStateM ε σ α) (s : σ) (post : α → σ → Prop) : Prop :=
  ∃ a t, x.run s = .ok a t ∧ post a t

section Returns

variable {s : σ} {post : α → σ → Prop} {postB : β → σ → Prop}

theorem returns_pure {a : α} (h : post a s) : Returns (pure a : EStateM ε σ α) s post :=
  ⟨a, s, rfl, h⟩

theorem returns_get : Returns (get : EStateM ε σ σ) s fun a t => a = s ∧ t = s :=
  ⟨s, s, rfl, rfl, rfl⟩

theorem returns_modify {f : σ → σ} :
    Returns (modify f : EStateM ε σ PUnit) s fun _ t => t = f s := ⟨⟨⟩, f s, rfl, rfl⟩

theorem returns_set {t : σ} : Returns (set t : EStateM ε σ PUnit) s fun _ u => u = t :=
  ⟨⟨⟩, t, rfl, rfl⟩

theorem returns_of_ok {x : EStateM ε σ α} {a : α} {t : σ} (h : x.run s = .ok a t) :
    Returns x s fun b u => b = a ∧ u = t := ⟨a, t, h, rfl, rfl⟩

theorem Returns.bind {x : EStateM ε σ α} {f : α → EStateM ε σ β} (hx : Returns x s post)
    (hf : ∀ a t, post a t → Returns (f a) t postB) : Returns (x >>= f) s postB := by
  obtain ⟨a, t, hrun, ha⟩ := hx
  obtain ⟨b, u, hrun', hb⟩ := hf a t ha
  exact ⟨b, u, (run_bind_ok hrun).trans hrun', hb⟩

theorem Returns.imp {x : EStateM ε σ α} {post' : α → σ → Prop} (hx : Returns x s post)
    (h : ∀ a t, post a t → post' a t) : Returns x s post' := by
  obtain ⟨a, t, hrun, ha⟩ := hx
  exact ⟨a, t, hrun, h a t ha⟩

theorem Returns.and {x : EStateM ε σ α} {post' : α → σ → Prop} (hx : Returns x s post)
    (hx' : Returns x s post') : Returns x s fun a t => post a t ∧ post' a t := by
  obtain ⟨a, t, hrun, ha⟩ := hx
  obtain ⟨b, u, hrun', hb⟩ := hx'
  cases hrun.symm.trans hrun'
  exact ⟨a, t, hrun, ha, hb⟩

def orThrow (e : ε) : Option α → EStateM ε σ α
  | none => throw e
  | some a => return a

theorem orThrow_returns {e : ε} {o : Option α} {a : α} (h : o = some a) :
    Returns (orThrow e o) s fun b t => b = a ∧ t = s := by
  subst h
  exact returns_pure ⟨rfl, rfl⟩

theorem orThrow_ok {e : ε} {o : Option α} {t : σ} {a : α}
    (h : (orThrow e o : EStateM ε σ α).run s = .ok a t) : o = some a ∧ t = s := by
  cases o with
  | none => cases h
  | some b =>
    cases h
    exact ⟨rfl, rfl⟩

theorem returns_forM {body : α → EStateM ε σ PUnit} (inv : List α → σ → Prop)
    (h : ∀ a l s, inv (a :: l) s → Returns (body a) s fun _ t => inv l t) {l : List α}
    (hs : inv l s) : Returns (l.forM body) s fun _ t => inv [] t := by
  induction l generalizing s with
  | nil => exact returns_pure hs
  | cons a l ih => exact (h a l s hs).bind fun _ _ ht => ih ht

end Returns

/-- A run that returns satisfies `post`, one that throws satisfies `bad`. -/
def Ends (x : EStateM ε σ α) (s : σ) (post : α → σ → Prop) (bad : ε → σ → Prop) : Prop :=
  (∃ a t, x.run s = .ok a t ∧ post a t) ∨ ∃ e t, x.run s = .error e t ∧ bad e t

section Ends

variable {s : σ} {post : α → σ → Prop} {postB : β → σ → Prop} {bad : ε → σ → Prop}

theorem ends_ok {x : EStateM ε σ α} {a : α} {t : σ} (h : x.run s = .ok a t) (hp : post a t) :
    Ends x s post bad := Or.inl ⟨a, t, h, hp⟩

theorem ends_error {x : EStateM ε σ α} {e : ε} {t : σ} (h : x.run s = .error e t)
    (hb : bad e t) : Ends x s post bad := Or.inr ⟨e, t, h, hb⟩

theorem ends_any (x : EStateM ε σ α) (s : σ) : Ends x s (fun _ _ => True) fun _ _ => True := by
  cases hx : x.run s with
  | ok a t => exact ends_ok hx trivial
  | error e t => exact ends_error hx trivial

theorem Ends.post_of_ok {x : EStateM ε σ α} {a : α} {t : σ} (hx : Ends x s post bad)
    (h : x.run s = .ok a t) : post a t := by
  rcases hx with ⟨b, u, hrun, hp⟩ | ⟨e, u, hrun, _⟩
  · cases hrun.symm.trans h
    exact hp
  · cases hrun.symm.trans h

theorem Ends.bad_of_error {x : EStateM ε σ α} {e : ε} {t : σ} (hx : Ends x s post bad)
    (h : x.run s = .error e t) : bad e t := by
  rcases hx with ⟨b, u, hrun, _⟩ | ⟨f, u, hrun, hb⟩
  · cases hrun.symm.trans h
  · cases hrun.symm.trans h
    exact hb

theorem Ends.imp {x : EStateM ε σ α} {post' : α → σ → Prop} {bad' : ε → σ → Prop}
    (hx : Ends x s post bad) (hpost : ∀ a t, post a t → post' a t)
    (hbad : ∀ e t, bad e t → bad' e t) : Ends x s post' bad' := by
  rcases hx with ⟨a, t, hrun, ha⟩ | ⟨e, t, hrun, he⟩
  · exact ends_ok hrun (hpost a t ha)
  · exact ends_error hrun (hbad e t he)

theorem Returns.ends {x : EStateM ε σ α} (hx : Returns x s post) : Ends x s post bad := by
  obtain ⟨a, t, hrun, ha⟩ := hx
  exact ends_ok hrun ha

theorem orThrow_ends {e : ε} {o : Option α} (h : ∀ t, bad e t) :
    Ends (orThrow e o) s (fun a t => o = some a ∧ t = s) bad := by
  cases o with
  | none => exact ends_error rfl (h s)
  | some a => exact ends_ok rfl ⟨rfl, rfl⟩

theorem Ends.bind {x : EStateM ε σ α} {f : α → EStateM ε σ β} (hx : Ends x s post bad)
    (hf : ∀ a t, post a t → Ends (f a) t postB bad) : Ends (x >>= f) s postB bad := by
  rcases hx with ⟨a, t, hrun, ha⟩ | ⟨e, t, hrun, he⟩
  · rcases hf a t ha with ⟨b, u, hrun', hb⟩ | ⟨e, u, hrun', he⟩
    · exact ends_ok ((run_bind_ok hrun).trans hrun') hb
    · exact ends_error ((run_bind_ok hrun).trans hrun') he
  · exact ends_error (run_bind_error hrun) he

theorem ends_forM {body : α → EStateM ε σ PUnit} {inv : σ → Prop} {l : List α}
    (h : ∀ a ∈ l, ∀ s, inv s → Ends (body a) s (fun _ t => inv t) bad) (hs : inv s) :
    Ends (l.forM body) s (fun _ t => inv t) bad := by
  induction l generalizing s with
  | nil => exact ends_ok rfl hs
  | cons a l ih =>
    apply (h a List.mem_cons_self s hs).bind
    intro _ t ht
    exact ih (fun b hb => h b (List.mem_cons_of_mem _ hb)) ht

end Ends

/-- Where the program returns, it has not changed `f` of the state. -/
def Keeps {γ : Type} (f : σ → γ) (x : EStateM ε σ α) : Prop :=
  ∀ s a t, x.run s = .ok a t → f t = f s

section Keeps

variable {γ : Type} {f : σ → γ}

theorem keeps_pure (a : α) : Keeps f (pure a : EStateM ε σ α) := by
  intro s b t h
  cases h
  rfl

theorem keeps_throw (e : ε) : Keeps f (throw e : EStateM ε σ α) := nofun

theorem keeps_get : Keeps f (get : EStateM ε σ σ) := by
  intro s b t h
  cases h
  rfl

theorem keeps_modify {g : σ → σ} (h : ∀ s, f (g s) = f s) :
    Keeps f (modify g : EStateM ε σ PUnit) := by
  intro s b t hrun
  cases hrun
  exact h s

theorem keeps_orThrow (e : ε) (o : Option α) : Keeps f (orThrow e o : EStateM ε σ α) := by
  intro s b t h
  rw [(orThrow_ok h).2]

theorem Keeps.bind {x : EStateM ε σ α} {g : α → EStateM ε σ β} (hx : Keeps f x)
    (hg : ∀ a, Keeps f (g a)) : Keeps f (x >>= g) := by
  intro s b u h
  obtain ⟨a, t, hrun, hrun'⟩ := bind_ok h
  rw [hg a t b u hrun', hx s a t hrun]

theorem keeps_forM {body : α → EStateM ε σ PUnit} {l : List α} (h : ∀ a, Keeps f (body a)) :
    Keeps f (l.forM body) := by
  induction l with
  | nil => exact keeps_pure _
  | cons a l ih => exact (h a).bind fun _ => ih

end Keeps

/-- A run from `s` leaves the state `t`, whether it returns or throws. -/
def Leads (x : EStateM ε σ α) (s t : σ) : Prop :=
  (∃ a, x.run s = .ok a t) ∨ ∃ e, x.run s = .error e t

/-- A run that returns keeps `inv`, and one that throws leaves `bad`. -/
def Stable (inv bad : σ → Prop) (x : EStateM ε σ α) : Prop :=
  ∀ s, inv s → Ends x s (fun _ t => inv t) fun _ t => bad t

section Stable

variable {inv bad : σ → Prop} {s t : σ}

theorem Returns.of_leads {x : EStateM ε σ α} {post : α → σ → Prop} (hx : Returns x s post)
    (h : Leads x s t) : ∃ a, post a t := by
  obtain ⟨a, u, hrun, ha⟩ := hx
  rcases h with ⟨b, hb⟩ | ⟨e, he⟩
  · cases hrun.symm.trans hb
    exact ⟨a, ha⟩
  · cases hrun.symm.trans he

theorem Stable.of_leads {x : EStateM ε σ α} (hx : Stable inv inv x) (h : Leads x s t)
    (hs : inv s) : inv t := by
  rcases h with ⟨a, ha⟩ | ⟨e, he⟩
  · exact (hx s hs).post_of_ok ha
  · exact (hx s hs).bad_of_error he

theorem leads_ends (x : EStateM ε σ α) (s : σ) :
    Ends x s (fun _ t => Leads x s t) fun _ t => Leads x s t := by
  cases hx : x.run s with
  | ok a t => exact ends_ok hx (Or.inl ⟨a, hx⟩)
  | error e t => exact ends_error hx (Or.inr ⟨e, hx⟩)

theorem Keeps.of_stable {γ : Type} {f : σ → γ} {x : EStateM ε σ α}
    (h : ∀ v, Stable (fun s => f s = v) (fun _ => True) x) : Keeps f x := by
  intro s a t hrun
  exact (h (f s) s rfl).post_of_ok hrun

theorem stable_of_ok {x : EStateM ε σ α} (h : ∀ s a t, inv s → x.run s = .ok a t → inv t) :
    Stable inv (fun _ => True) x := by
  intro s hs
  cases hx : x.run s with
  | ok a t => exact ends_ok hx (h s a t hs hx)
  | error e t => exact ends_error hx trivial

theorem Keeps.stable {γ : Type} {f : σ → γ} {x : EStateM ε σ α} (h : Keeps f x) (v : γ) :
    Stable (fun s => f s = v) (fun _ => True) x :=
  stable_of_ok fun s a t hs hrun => (h s a t hrun).trans hs

theorem stable_pure (a : α) : Stable inv bad (pure a : EStateM ε σ α) :=
  fun _ hs => ends_ok rfl hs

theorem stable_get : Stable inv bad (get : EStateM ε σ σ) := fun _ hs => ends_ok rfl hs

theorem stable_get_bind {g : σ → EStateM ε σ β} (h : ∀ s, inv s → Stable inv bad (g s)) :
    Stable inv bad (get >>= g) := by
  intro s hs
  apply returns_get.ends.bind
  intro a t hpost
  obtain ⟨rfl, rfl⟩ := hpost
  exact h _ hs _ hs

theorem stable_modify {g : σ → σ} (h : ∀ s, inv s → inv (g s)) :
    Stable inv bad (modify g : EStateM ε σ PUnit) := fun s hs => ends_ok rfl (h s hs)

theorem stable_throw (hbad : ∀ s, inv s → bad s) (e : ε) :
    Stable inv bad (throw e : EStateM ε σ α) := fun s hs => ends_error rfl (hbad s hs)

theorem stable_orThrow (hbad : ∀ s, inv s → bad s) (e : ε) (o : Option α) :
    Stable inv bad (orThrow e o : EStateM ε σ α) := by
  cases o with
  | none => exact stable_throw hbad e
  | some a => exact stable_pure a

theorem stable_orThrow_bind (hbad : ∀ s, inv s → bad s) {e : ε} {o : Option α}
    {g : α → EStateM ε σ β} (h : ∀ a, o = some a → Stable inv bad (g a)) :
    Stable inv bad (orThrow e o >>= g) := by
  cases o with
  | none => exact fun s hs => ends_error (run_bind_error rfl) (hbad s hs)
  | some a => exact h a rfl

theorem Stable.bind {x : EStateM ε σ α} {g : α → EStateM ε σ β} (hx : Stable inv bad x)
    (hg : ∀ a, Stable inv bad (g a)) : Stable inv bad (x >>= g) := by
  intro s hs
  apply (hx s hs).bind
  intro a t ht
  exact hg a t ht

theorem stable_forM {body : α → EStateM ε σ PUnit} {l : List α}
    (h : ∀ a ∈ l, Stable inv bad (body a)) : Stable inv bad (l.forM body) :=
  fun _ hs => ends_forM (fun a ha s hs => h a ha s hs) hs

end Stable

def mapState (g : σ → σ) : EStateM.Result ε σ α → EStateM.Result ε σ α
  | .ok a s => .ok a (g s)
  | .error e s => .error e (g s)

def Commutes (g : σ → σ) (x : EStateM ε σ α) : Prop := ∀ s, x.run (g s) = mapState g (x.run s)

section Commutes

variable {g : σ → σ}

theorem commutes_pure (a : α) : Commutes g (pure a : EStateM ε σ α) := fun _ => rfl

theorem commutes_modify {f : σ → σ} (h : ∀ s, f (g s) = g (f s)) :
    Commutes g (modify f : EStateM ε σ PUnit) := by
  intro s
  rw [run_modify, run_modify, h]
  rfl

theorem Commutes.bind {x : EStateM ε σ α} {f : α → EStateM ε σ β} (hx : Commutes g x)
    (hf : ∀ a, Commutes g (f a)) : Commutes g (x >>= f) := by
  intro s
  have hrun := hx s
  cases h : x.run s with
  | ok a t =>
    rw [h] at hrun
    rw [run_bind_ok h, run_bind_ok hrun, hf]
  | error e t =>
    rw [h] at hrun
    rw [run_bind_error h, run_bind_error hrun]
    rfl

theorem commutes_get {f : σ → EStateM ε σ β} (h : ∀ s, f (g s) = f s)
    (hf : ∀ s, Commutes g (f s)) : Commutes g (get >>= f) := by
  intro s
  rw [run_bind_ok (run_get s), run_bind_ok (run_get (g s)), h, hf]

theorem commutes_forM {body : α → EStateM ε σ PUnit} (h : ∀ a, Commutes g (body a))
    (l : List α) : Commutes g (l.forM body) := by
  induction l with
  | nil => exact commutes_pure _
  | cons a l ih => exact (h a).bind fun _ => ih

end Commutes

section Focus

variable {ε' τ : Type} (view : σ → τ) (put : τ → σ → σ) (wrap : ε' → ε)

def focus (x : EStateM ε' τ α) : EStateM ε σ α := fun s =>
  match x.run (view s) with
  | .ok a t => .ok a (put t s)
  | .error e t => .error (wrap e) (put t s)

theorem Returns.focus {x : EStateM ε' τ α} {s : σ} {post : α → τ → Prop}
    (h : Returns x (view s) post) :
    Returns (focus view put wrap x) s fun a u => ∃ t, post a t ∧ u = put t s := by
  obtain ⟨a, t, hrun, ha⟩ := h
  refine ⟨a, put t s, ?_, t, ha, rfl⟩
  change StateExcept.focus view put wrap x s = .ok a (put t s)
  simp only [StateExcept.focus, hrun]

theorem Ends.focus {x : EStateM ε' τ α} {s : σ} {post : α → τ → Prop} {bad : ε' → τ → Prop}
    (h : Ends x (view s) post bad) :
    Ends (focus view put wrap x) s (fun a u => ∃ t, post a t ∧ u = put t s)
      fun e u => ∃ e' t, bad e' t ∧ e = wrap e' ∧ u = put t s := by
  rcases h with ⟨a, t, hrun, ha⟩ | ⟨e, t, hrun, he⟩
  · apply ends_ok (t := put t s) _ ⟨t, ha, rfl⟩
    change StateExcept.focus view put wrap x s = .ok a (put t s)
    simp only [StateExcept.focus, hrun]
  · apply ends_error (e := wrap e) (t := put t s) _ ⟨e, t, he, rfl, rfl⟩
    change StateExcept.focus view put wrap x s = .error (wrap e) (put t s)
    simp only [StateExcept.focus, hrun]

theorem Stable.focus {x : EStateM ε' τ α} {inv bad : σ → Prop} {inv' bad' : τ → Prop}
    (hx : Stable inv' bad' x) (hview : ∀ s, inv s → inv' (view s))
    (hput : ∀ t s, inv s → inv' t → inv (put t s))
    (hbad : ∀ t s, inv s → bad' t → bad (put t s)) :
    Stable inv bad (focus view put wrap x) := by
  intro s hs
  apply ((hx (view s) (hview s hs)).focus view put wrap).imp
  · intro a u hpost
    obtain ⟨t, ht, rfl⟩ := hpost
    exact hput t s hs ht
  · intro e u hpost
    obtain ⟨_, t, ht, _, rfl⟩ := hpost
    exact hbad t s hs ht

theorem keeps_focus {γ : Type} {f : σ → γ} (h : ∀ t s, f (put t s) = f s)
    (x : EStateM ε' τ α) : Keeps f (focus view put wrap x) := by
  intro s a u hrun
  change focus view put wrap x s = .ok a u at hrun
  rw [focus] at hrun
  split at hrun
  · cases hrun
    exact h _ s
  · cases hrun

end Focus

end StateExcept
