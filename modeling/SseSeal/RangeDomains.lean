import SseSeal.RangeCover

/-! `single_range_cover` on the tree of any range. Its recursion ends at nodes of two values only.
Where the bisection comes to three values it leaves a single one, which has no children to go to. -/
namespace RangeDomains

open Bytes SortedMap RangeTree RangeCover

variable {l r lo hi lo' hi' : ℤ} {d : RangeNode} {t left right : T1} {parents : Dict ℕ RangeNode}

/-- The tree that `build_tree_t1` makes of a range. -/
inductive Bisects : ℤ → ℤ → T1 → Prop
  | leaf {l r : ℤ} {d : RangeNode} (h : d.rangeCover = (l, r)) (hle : r ≤ l) :
      Bisects l r (.node d .nil .nil)
  | fork {l r : ℤ} {d : RangeNode} {left right : T1} (h : d.rangeCover = (l, r)) (hlt : l < r)
      (hl : Bisects l ((l + r) / 2) left) (hr : Bisects ((l + r) / 2 + 1) r right) :
      Bisects l r (.node d left right)

theorem buildTreeT1_bisects (memory : List (Str × ℕ)) (context : Str) (l r : ℤ) (c : ℕ) :
    Bisects l r (buildTreeT1 memory context l r c).1 := by
  induction l, r, c using buildTreeT1.induct memory context with
  | case1 l r c hge =>
    rw [buildTreeT1, if_pos hge]
    exact .leaf rfl hge
  | case2 l r c hlt mid left hl _ hr =>
    rw [buildTreeT1, if_neg hlt]
    exact .fork rfl (not_le.mp hlt) hl hr

theorem Bisects.bounds (h : Bisects l r t) (hle : l ≤ r) (hd : d ∈ nodes t) :
    l ≤ d.rangeCover.1 ∧ d.rangeCover.1 ≤ d.rangeCover.2 ∧ d.rangeCover.2 ≤ r := by
  induction h with
  | leaf h _ =>
    rw [List.mem_singleton.mp hd, h]
    exact ⟨le_rfl, hle, le_rfl⟩
  | fork h hlt _ _ ihl ihr =>
    rcases List.mem_append.mp hd with hd | hd
    · rcases List.mem_append.mp hd with hd | hd
      · have hb := ihl (by omega) hd
        omega
      · have hb := ihr (by omega) hd
        omega
    · rw [List.mem_singleton.mp hd, h]
      exact ⟨le_rfl, hle, le_rfl⟩

/-- No node over three values has its last value in the query. -/
def Avoids (lo hi : ℤ) (t : T1) : Prop :=
  ∀ d ∈ nodes t, d.rangeCover.2 = d.rangeCover.1 + 2 →
    ¬ (lo ≤ d.rangeCover.2 ∧ d.rangeCover.2 ≤ hi)

theorem avoids_node (hd : d.rangeCover = (l, r)) : Avoids lo hi (.node d left right) ↔
    Avoids lo hi left ∧ Avoids lo hi right ∧ (r = l + 2 → ¬ (lo ≤ r ∧ r ≤ hi)) := by
  have hroot : (d.rangeCover.2 = d.rangeCover.1 + 2 →
      ¬ (lo ≤ d.rangeCover.2 ∧ d.rangeCover.2 ≤ hi)) ↔ (r = l + 2 → ¬ (lo ≤ r ∧ r ≤ hi)) := by
    rw [hd]
  rw [← hroot]
  simp only [Avoids, nodes, List.mem_append, List.mem_singleton]
  constructor
  · intro h
    exact ⟨fun a ha => h a (Or.inl (Or.inl ha)), fun a ha => h a (Or.inl (Or.inr ha)),
      h d (Or.inr rfl)⟩
  · intro h a ha
    obtain ⟨hl, hr, hd⟩ := h
    rcases ha with (ha | ha) | rfl
    · exact hl a ha
    · exact hr a ha
    · exact hd

theorem Bisects.avoids_congr (h : Bisects l r t) (hle : l ≤ r)
    (hsame : ∀ v, l ≤ v → v ≤ r → (lo ≤ v ∧ v ≤ hi ↔ lo' ≤ v ∧ v ≤ hi')) :
    Avoids lo hi t ↔ Avoids lo' hi' t := by
  refine forall₂_congr fun d hd => ?_
  obtain ⟨h₁, h₂, h₃⟩ := h.bounds hle hd
  rw [hsame d.rangeCover.2 (h₁.trans h₂) h₃]

theorem Bisects.avoids_outside (h : Bisects l r t) (hle : l ≤ r) (hout : r < lo ∨ hi < l) :
    Avoids lo hi t := by
  intro d hd _ hin
  have hb := h.bounds hle hd
  omega

theorem Bisects.single (h : Bisects r r t) : singleRangeCover parents t lo hi = none := by
  cases h with
  | leaf hd _ =>
    rw [singleRangeCover, hd]
    simp [singleRangeCover]
  | fork _ hlt _ _ => exact absurd hlt (lt_irrefl r)

theorem singleRangeCover_both {m : ℤ} (hd : d.rangeCover = (l, r)) (htwo : l + 1 < r)
    (hm : (l + r) / 2 = m) (hlo : lo ≤ m) (hhi : m < hi) :
    (singleRangeCover parents (.node d left right) lo hi).isSome ↔
      (singleRangeCover parents left lo m).isSome ∧
        (singleRangeCover parents right (m + 1) hi).isSome := by
  have hwide : ¬ r - 1 = l := by omega
  simp only [singleRangeCover, hd, if_neg hwide, hm, if_neg (not_lt.mpr hlo),
    if_neg (not_le.mpr hhi)]
  cases singleRangeCover parents left lo m with
  | none => simp
  | some a =>
    cases singleRangeCover parents right (m + 1) hi with
    | none => simp
    | some b =>
      simp only [Option.bind_eq_bind, Option.bind_some, Option.isSome_some, and_self, iff_true]
      split
      · split <;> rfl
      · rfl

/-- The search meets a null pointer where the bisection has left the last of three values alone and
the query has this value. -/
theorem Bisects.singleRangeCover_isSome (h : Bisects l r t) (hlt : l < r) (hlo : l ≤ lo)
    (hle : lo ≤ hi) (hhi : hi ≤ r) :
    (singleRangeCover parents t lo hi).isSome ↔ Avoids lo hi t := by
  induction h generalizing lo hi with
  | leaf _ hge => exact absurd hlt (not_lt.mpr hge)
  | @fork l r d left right hd _ hl hr ihl ihr =>
    generalize hm : (l + r) / 2 = m at hl hr ihl ihr
    rw [avoids_node hd]
    by_cases htwo : r - 1 = l
    · -- two values: neither a child nor the node itself is over three
      have hnone : ∀ {t : T1} {a b : ℤ}, Bisects a b t → a ≤ b → b ≤ a + 1 → Avoids lo hi t := by
        intro t a b ht hab hshort d hd hthree
        have hb := ht.bounds hab hd
        omega
      simp only [singleRangeCover, hd, if_pos htwo, Option.isSome_some, true_iff]
      exact ⟨hnone hl (by omega) (by omega), hnone hr (by omega) (by omega), by omega⟩
    have hleft : ∀ a b, l ≤ a → a ≤ b → b ≤ m →
        ((singleRangeCover parents left a b).isSome ↔ Avoids a b left) :=
      fun a b h₁ h₂ h₃ => ihl (by omega) h₁ h₂ h₃
    -- the last of three values is alone
    have hright : ∀ a b, m + 1 ≤ a → a ≤ b → b ≤ r →
        ((singleRangeCover parents right a b).isSome ↔ Avoids a b right ∧ r ≠ l + 2) := by
      intro a b h₁ h₂ h₃
      by_cases hthree : r = l + 2
      · have hone : m + 1 = r := by omega
        rw [hone] at hr
        simp [hr.single, hthree]
      · rw [ihr (by omega) h₁ h₂ h₃]
        exact (and_iff_left hthree).symm
    by_cases hgt : lo > m
    · have hskip : Avoids lo hi left := hl.avoids_outside (by omega) (Or.inl hgt)
      simp only [singleRangeCover, hd, if_neg htwo, hm, if_pos hgt]
      rw [hright lo hi (by omega) hle hhi]
      constructor
      · intro h
        exact ⟨hskip, h.1, fun hthree => absurd hthree h.2⟩
      · intro h
        exact ⟨h.2.1, fun hthree => h.2.2 hthree (by omega)⟩
    by_cases hmid : hi ≤ m
    · have hskip : Avoids lo hi right := hr.avoids_outside (by omega) (Or.inr (by omega))
      simp only [singleRangeCover, hd, if_neg htwo, hm, if_neg hgt, if_pos hmid]
      rw [hleft lo hi hlo hle hmid]
      constructor
      · intro h
        exact ⟨h, hskip, fun _ hin => absurd hin.2 (by omega)⟩
      · intro h
        exact h.1
    have hlow : Avoids lo m left ↔ Avoids lo hi left :=
      hl.avoids_congr (by omega) fun v _ _ => by omega
    have hhigh : Avoids (m + 1) hi right ↔ Avoids lo hi right :=
      hr.avoids_congr (by omega) fun v _ _ => by omega
    rw [singleRangeCover_both hd (by omega) hm (by omega) (by omega),
      hleft lo m hlo (by omega) le_rfl, hright (m + 1) hi le_rfl (by omega) hhi, hlow, hhigh]
    constructor
    · intro h
      exact ⟨h.1, h.2.1, fun hthree => absurd hthree h.2.2⟩
    · intro h
      exact ⟨h.1, h.2.1, fun hthree => h.2.2 hthree ⟨by omega, by omega⟩⟩

/-- A bisection comes to no three values where the number of values is a power of two. -/
theorem Bisects.no_three_iff (h : Bisects l r t) (hlt : l < r) :
    (∀ d ∈ nodes t, d.rangeCover.2 ≠ d.rangeCover.1 + 2) ↔ ∃ k : ℕ, r - l + 1 = 2 ^ (k + 1) := by
  induction h with
  | leaf _ hge => exact absurd hlt (not_lt.mpr hge)
  | @fork l r d left right hd _ hl hr ihl ihr =>
    generalize hm : (l + r) / 2 = m at hl hr ihl ihr
    by_cases htwo : r = l + 1
    · constructor
      · intro _
        exact ⟨0, by omega⟩
      · intro _ a ha
        have hb := (Bisects.fork hd hlt (hm ▸ hl) (hm ▸ hr)).bounds hlt.le ha
        omega
    by_cases hthree : r = l + 2
    · constructor
      · intro h
        have hroot := h d (by simp [nodes])
        rw [hd] at hroot
        exact absurd hthree hroot
      · intro h
        obtain ⟨k, hk⟩ := h
        have hpow : (2 : ℤ) ^ (k + 1) = 2 * 2 ^ k := pow_succ' 2 k
        omega
    have hsplit : (∀ a ∈ nodes (.node d left right), a.rangeCover.2 ≠ a.rangeCover.1 + 2) ↔
        (∀ a ∈ nodes left, a.rangeCover.2 ≠ a.rangeCover.1 + 2) ∧
          ∀ a ∈ nodes right, a.rangeCover.2 ≠ a.rangeCover.1 + 2 := by
      simp only [nodes, List.mem_append, List.mem_singleton, or_imp, forall_and, forall_eq, hd]
      exact and_iff_left hthree
    rw [hsplit, ihl (by omega), ihr (by omega)]
    constructor
    · intro h
      obtain ⟨⟨a, ha⟩, b, hb⟩ := h
      have hpa : (2 : ℤ) ^ (a + 1) = 2 * 2 ^ a := pow_succ' 2 a
      have hpb : (2 : ℤ) ^ (b + 1) = 2 * 2 ^ b := pow_succ' 2 b
      have hpow : (2 : ℤ) ^ (a + 1 + 1) = 2 * 2 ^ (a + 1) := pow_succ' 2 (a + 1)
      exact ⟨a + 1, by omega⟩
    · intro h
      obtain ⟨k, hk⟩ := h
      have hpow : (2 : ℤ) ^ (k + 1) = 2 * 2 ^ k := pow_succ' 2 k
      cases k with
      | zero => omega
      | succ k => exact ⟨⟨k, by omega⟩, k, by omega⟩

end RangeDomains
