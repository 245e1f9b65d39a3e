import SseSeal.StateExcept

/-! The calls a program makes to a service that may fail at any call. A program that
issues a fixed list of calls makes a prefix of it: up to the end, or up to the first
call that fails. -/
namespace CallTrace

open StateExcept

variable {ε σ κ α β : Type}

/-- The calls made of a list of planned calls, when call number `k` is the next one. -/
def issued (fails : ℕ → Bool) : ℕ → List κ → List κ
  | _, [] => []
  | k, c :: l => if fails k then [c] else c :: issued fails (k + 1) l

theorem issued_of_succeed {fails : ℕ → Bool} {k : ℕ} {l : List κ}
    (h : ∀ i < l.length, fails (k + i) = false) : issued fails k l = l := by
  induction l generalizing k with
  | nil => rfl
  | cons c l ih =>
    have hk : fails k = false := h 0 (Nat.zero_lt_succ _)
    have hl : issued fails (k + 1) l = l := by
      apply ih
      intro i hi
      have := h (i + 1) (Nat.succ_lt_succ hi)
      rwa [Nat.add_right_comm]
    simp [issued, hk, hl]

theorem issued_of_fail {fails : ℕ → Bool} {k : ℕ} {pre post : List κ} {c : κ}
    (h : ∀ i < pre.length, fails (k + i) = false) (hc : fails (k + pre.length) = true) :
    issued fails k (pre ++ c :: post) = pre ++ [c] := by
  induction pre generalizing k with
  | nil =>
    have hk : fails k = true := hc
    simp [issued, hk]
  | cons d pre ih =>
    have hk : fails k = false := h 0 (Nat.zero_lt_succ _)
    have hl : issued fails (k + 1) (pre ++ c :: post) = pre ++ [c] := by
      apply ih
      · intro i hi
        have := h (i + 1) (Nat.succ_lt_succ hi)
        rwa [Nat.add_right_comm]
      · rw [Nat.add_right_comm]
        exact hc
    simp [issued, hk, hl]

section Issues

variable (calls : σ → List κ) (fails : ℕ → Bool)

/-- A run from `s` plans the calls `l` and satisfies `Q` if none of them fails. -/
inductive Issues (s : σ) (l : List κ) (Q : α → σ → Prop) : EStateM.Result ε σ α → Prop where
  | ok (a : α) (u : σ) : Q a u → calls u = calls s ++ l →
      (∀ i < l.length, fails ((calls s).length + i) = false) → Issues s l Q (.ok a u)
  | error (e : ε) (u : σ) (pre : List κ) (c : κ) (post : List κ) : l = pre ++ c :: post →
      calls u = calls s ++ (pre ++ [c]) →
      (∀ i < pre.length, fails ((calls s).length + i) = false) →
      fails ((calls s).length + pre.length) = true → Issues s l Q (.error e u)

variable {calls fails} {s : σ} {l m : List κ} {Q : α → σ → Prop} {R : β → σ → Prop}

/-- The state a run ends in, whether it throws or not. -/
def final : EStateM.Result ε σ α → σ
  | .ok _ u => u
  | .error _ u => u

theorem Issues.calls_final {r : EStateM.Result ε σ α} (h : Issues calls fails s l Q r) :
    calls (final r) = calls s ++ issued fails (calls s).length l := by
  cases h with
  | ok a u _ hcalls hok =>
    rw [issued_of_succeed hok]
    exact hcalls
  | error e u pre c post hl hcalls hok hfail =>
    rw [hl, issued_of_fail hok hfail]
    exact hcalls

theorem Issues.silent {a : α} {u : σ} (hq : Q a u) (hc : calls u = calls s) :
    Issues (ε := ε) calls fails s [] Q (.ok a u) := by
  apply Issues.ok a u hq
  · simp [hc]
  · simp

theorem Issues.imp {Q' : α → σ → Prop} {t : σ} {r : EStateM.Result ε σ α}
    (h : Issues calls fails s l Q r) (ht : calls t = calls s) (hq : ∀ a u, Q a u → Q' a u) :
    Issues calls fails t l Q' r := by
  cases h with
  | ok a u hqa hcalls hok => exact .ok a u (hq a u hqa) (ht ▸ hcalls) (ht ▸ hok)
  | error e u pre c post hl hcalls hok hfail =>
    exact .error e u pre c post hl (ht ▸ hcalls) (ht ▸ hok) (ht ▸ hfail)

theorem Issues.bind {x : EStateM ε σ α} {f : α → EStateM ε σ β}
    (hx : Issues calls fails s l Q (x.run s))
    (hf : ∀ a t, Q a t → Issues calls fails t m R ((f a).run t)) :
    Issues calls fails s (l ++ m) R ((x >>= f).run s) := by
  cases hr : x.run s with
  | error e u =>
    rw [hr] at hx
    rw [run_bind_error hr]
    cases hx with
    | error _ _ pre c post hl hcalls hok hfail =>
      exact .error e u pre c (post ++ m) (by simp [hl]) hcalls hok hfail
  | ok a t =>
    rw [hr] at hx
    rw [run_bind_ok hr]
    cases hx with
    | ok _ _ hq hcalls hok =>
      have hlen : (calls t).length = (calls s).length + l.length := by simp [hcalls]
      have hboth : ∀ {n : ℕ}, (∀ i < n, fails ((calls t).length + i) = false) →
          ∀ i < l.length + n, fails ((calls s).length + i) = false := by
        intro n hn i hi
        by_cases hil : i < l.length
        · exact hok i hil
        · have := hn (i - l.length) (by omega)
          rw [hlen] at this
          have he : (calls s).length + l.length + (i - l.length) = (calls s).length + i := by
            omega
          rwa [he] at this
      have hrest := hf a t hq
      cases hrun : (f a).run t with
      | ok b u =>
        rw [hrun] at hrest
        cases hrest with
        | ok _ _ hr hcalls' hok' =>
          apply Issues.ok b u hr
          · simp [hcalls', hcalls]
          · rw [List.length_append]
            exact hboth hok'
      | error e u =>
        rw [hrun] at hrest
        cases hrest with
        | error _ _ pre c post hm hcalls' hok' hfail =>
          refine .error e u (l ++ pre) c post (by simp [hm]) (by simp [hcalls', hcalls]) ?_ ?_
          · rw [List.length_append]
            exact hboth hok'
          · rw [List.length_append, ← Nat.add_assoc, ← hlen]
            exact hfail

theorem Issues.forM {body : β → EStateM ε σ PUnit} {plan : β → List κ} {G : σ → Prop} {bs : List β}
    (h : ∀ b ∈ bs, ∀ s, G s → Issues calls fails s (plan b) (fun _ u => G u) ((body b).run s))
    (hs : G s) :
    Issues calls fails s (bs.flatMap plan) (fun _ u => G u) ((bs.forM body).run s) := by
  induction bs generalizing s with
  | nil => exact .silent hs rfl
  | cons b bs ih =>
    refine (h b List.mem_cons_self s hs).bind ?_
    intro _ t ht
    exact ih (fun d hd => h d (List.mem_cons_of_mem _ hd)) ht

end Issues

end CallTrace
