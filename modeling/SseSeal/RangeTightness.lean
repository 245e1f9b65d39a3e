import SseSeal.DyadicSplit
import SseSeal.RangeCover

/-! How wide the node is that `single_range_cover` answers with, and the queries for which no
narrower node covers the query. -/
namespace RangeTightness

open Bytes SortedMap RangeTree RangeCover DyadicSplit

def width (d : RangeNode) : ℤ := d.rangeCover.2 - d.rangeCover.1 + 1

def Augmented (memory : List (Str × ℕ)) (context : Str) (lhs rhs : ℤ) (counter : ℕ)
    (d : RangeNode) : Prop :=
  let built := buildTreeT1 memory context lhs rhs counter
  d ∈ nodes built.1 ∨
    ∃ i, (addInternalNodesForTreeT1 built.1 built.2).parents.find? i = some d

variable {L : ℤ} {w k m n o x y B : ℕ} {d a b p q left right : RangeNode} {t : T1} {s : Links}
  {N level : List RangeNode} {start i : ℕ} {f : ℤ → List ℕ}

structure Neighbours (L : ℤ) (w B : ℕ) (left right : RangeNode) : Prop where
  left : left.rangeCover = (L + B - 2 ^ w, L + B - 1)
  right : right.rangeCover = (L + B, L + B + 2 ^ w - 1)
  aligned : 2 ^ (w + 1) ∣ B

inductive Row (L : ℤ) (w : ℕ) : ℕ → List RangeNode → Prop
  | nil (o : ℕ) : Row L w o []
  | cons {o : ℕ} {d : RangeNode} {level : List RangeNode}
      (h : d.rangeCover = (L + o, L + o + 2 ^ w - 1)) (hrow : Row L w (o + 2 ^ w) level) :
      Row L w o (d :: level)

inductive Line (L : ℤ) (k : ℕ) : ℕ → List T1 → Prop
  | nil (o : ℕ) : Line L k o []
  | cons {o : ℕ} {t : T1} {queue : List T1} (h : Spans k (L + o) t)
      (hline : Line L k (o + 2 ^ k) queue) : Line L k o (t :: queue)

theorem Line.row {queue : List T1} (h : Line L k o queue) :
    Row L k o (queue.filterMap value?) := by
  induction h with
  | nil o => exact .nil o
  | @cons o t queue ht hline ih =>
    obtain ⟨d, left, right, rfl, hd⟩ := ht.root
    exact .cons hd ih

theorem Line.next {queue : List T1} (h : Line L (k + 1) o queue) :
    Line L k o (nextLevel queue) := by
  induction h with
  | nil o => exact .nil o
  | @cons o t queue ht hline ih =>
    cases ht with
    | @fork _ _ d left right hd hl hr =>
    obtain ⟨_, _, _, rfl, _⟩ := hl.root
    obtain ⟨_, _, _, rfl, _⟩ := hr.root
    have hnext : o + 2 ^ k + 2 ^ k = o + 2 ^ (k + 1) := by
      rw [pow_succ]
      ring
    refine .cons hl (.cons ?_ ?_)
    · rw [Nat.cast_add, Nat.cast_pow, Nat.cast_ofNat, ← add_assoc]
      exact hr
    · rw [hnext]
      exact ih

theorem Line.next_zero {queue : List T1} (h : Line L 0 o queue) : nextLevel queue = [] := by
  induction h with
  | nil o => rfl
  | @cons o t queue ht hline ih =>
    cases ht
    exact ih

theorem three_widths : o + 2 ^ w + 2 ^ w + 2 ^ w = o + 2 ^ w + 2 ^ (w + 1) := by
  rw [pow_succ]
  ring

section Pass

variable {I : Links → Prop} (hlink : ∀ s w B left right, left ∈ N → right ∈ N →
  Neighbours L w B left right → I s → I (link s left right))
include hlink

theorem linkPairs_keeps (h : I s) (hrow : Row L w o level) (hodd : 2 ^ (w + 1) ∣ o + 2 ^ w)
    (hsub : level ⊆ N) : I (linkPairs s level) := by
  induction s, level using linkPairs.induct generalizing o with
  | case1 s left right level ih =>
    cases hrow with
    | cons hleft hrow =>
    cases hrow with
    | cons hright hrow =>
    have hpair : Neighbours L w (o + 2 ^ w) left right := by
      refine ⟨?_, ?_, hodd⟩
      · rw [hleft]
        push_cast
        congr 1 <;> ring
      · rw [hright]
    have hstep := hlink s w _ left right (hsub List.mem_cons_self)
      (hsub (List.mem_cons_of_mem _ List.mem_cons_self)) hpair h
    refine ih hstep hrow ?_
      fun d hd => hsub (List.mem_cons_of_mem _ (List.mem_cons_of_mem _ hd))
    rw [three_widths]
    exact Nat.dvd_add hodd dvd_rfl
  | case2 s level hshort =>
    rw [linkPairs]
    · exact h
    · exact hshort

theorem linkLevel_keeps (h : I s) (hrow : Row L w 0 level) (hsub : level ⊆ N) :
    I (linkLevel s level) := by
  cases hrow with
  | nil => exact h
  | cons _ hrow =>
    rw [Nat.zero_add] at hrow
    refine linkPairs_keeps hlink h hrow ?_ fun _ hd => hsub (List.mem_cons_of_mem _ hd)
    rw [pow_succ, Nat.mul_two]

theorem levels_keeps {queue : List T1} (h : I s) (hline : Line L k 0 queue)
    (hsub : ∀ t ∈ queue, nodes t ⊆ N) : I ((levels queue).foldl linkLevel s) := by
  induction queue using levels.induct generalizing s k with
  | case1 =>
    rw [levels, dif_pos rfl]
    exact h
  | case2 queue hne ih =>
    rw [levels, dif_neg hne, List.foldl_cons]
    have hvalues : queue.filterMap value? ⊆ N := by
      intro d hd
      obtain ⟨t, ht, hv⟩ := List.mem_filterMap.mp hd
      exact hsub t ht (value?_mem hv)
    have hlevel := linkLevel_keeps hlink h hline.row hvalues
    cases k with
    | zero =>
      rw [hline.next_zero, levels, dif_pos rfl]
      exact hlevel
    | succ k =>
      refine ih hlevel hline.next ?_
      intro u hu
      obtain ⟨t, ht, hu⟩ := List.mem_flatMap.mp hu
      exact fun a ha => hsub t ht (children_sub hu ha)

end Pass

theorem linkPairs_mono (h : s.parents.find? i ≠ none) :
    (linkPairs s level).parents.find? i ≠ none := by
  induction s, level using linkPairs.induct with
  | case1 s left right level ih =>
    apply ih
    rw [find?_link]
    split
    · exact Option.some_ne_none _
    · exact h
  | case2 s level hshort =>
    rw [linkPairs]
    · exact h
    · exact hshort

theorem levels_mono {levels : List (List RangeNode)} (h : s.parents.find? i ≠ none) :
    (levels.foldl linkLevel s).parents.find? i ≠ none := by
  induction levels generalizing s with
  | nil => exact h
  | cons level levels ih => exact ih (linkPairs_mono h)

theorem Row.start_le (h : Row L w o level) (hd : d ∈ level) : L + o ≤ d.rangeCover.1 := by
  induction h with
  | nil o => cases hd
  | @cons o d' level hcover hrow ih =>
    rcases List.mem_cons.mp hd with rfl | hd
    · rw [hcover]
    · have hrest := ih hd
      have hpos : (0 : ℤ) < 2 ^ w := by positivity
      push_cast at hrest
      omega

theorem linkPairs_sets (hrow : Row L w o level) (hodd : 2 ^ (w + 1) ∣ o + 2 ^ w)
    (hpair : Neighbours L w B a b) (ha : a ∈ level) (hb : b ∈ level) :
    (linkPairs s level).parents.find? a.id ≠ none := by
  obtain ⟨hcovera, hcoverb, hB⟩ := hpair
  have hpos : (0 : ℤ) < 2 ^ w := by positivity
  induction s, level using linkPairs.induct generalizing o with
  | case1 s left right level ih =>
    cases hrow with
    | cons hleft hrow =>
    cases hrow with
    | cons hright hrow =>
    rcases List.mem_cons.mp ha with rfl | ha
    · rw [linkPairs]
      apply linkPairs_mono
      rw [find?_link, if_pos (Or.inr rfl)]
      exact Option.some_ne_none _
    · rcases List.mem_cons.mp ha with rfl | ha
      · -- the second of two neighbours starts at a boundary of the pairs
        rw [hcovera] at hright
        have hstart := congrArg Prod.fst hright
        dsimp only at hstart
        push_cast at hstart
        have heq : B = o + 2 ^ w + 2 ^ w := by
          zify
          omega
        rw [heq] at hB
        exact absurd hB (not_dvd_half hodd)
      · have hstart := hrow.start_le ha
        rw [hcovera] at hstart
        push_cast at hstart
        have hrest : b ∈ level := by
          rcases List.mem_cons.mp hb with rfl | hb
          · have h := congrArg Prod.fst (hcoverb.symm.trans hleft)
            dsimp only at h
            omega
          · rcases List.mem_cons.mp hb with rfl | hb
            · have h := congrArg Prod.fst (hcoverb.symm.trans hright)
              dsimp only at h
              push_cast at h
              omega
            · exact hb
        refine ih hrow ?_ ha hrest
        rw [three_widths]
        exact Nat.dvd_add hodd dvd_rfl
  | case2 s level hshort =>
    -- a row of one node has no neighbours
    cases hrow with
    | nil => cases ha
    | cons hd hrow =>
      cases hrow with
      | nil =>
        have heq : a = b := (List.mem_singleton.mp ha).trans (List.mem_singleton.mp hb).symm
        rw [heq, hcoverb] at hcovera
        have h := congrArg Prod.fst hcovera
        dsimp only at h
        omega
      | cons _ _ => exact (hshort _ _ _ rfl).elim

structure Paired (L : ℤ) (N : List RangeNode) (s : Links) : Prop where
  shape : ∀ i p, s.parents.find? i = some p → ∃ w B left right, left ∈ N ∧ right ∈ N ∧
    Neighbours L w B left right ∧ (i = left.id ∨ i = right.id) ∧
    p.rangeCover = (L + B - 2 ^ w, L + B + 2 ^ w - 1)
  agree : ∀ w B left right, left ∈ N → right ∈ N → Neighbours L w B left right →
    s.parents.find? left.id = s.parents.find? right.id

theorem eq_of_cover {l : ℤ} (h : Spans k l t) (ha : a ∈ nodes t) (hb : b ∈ nodes t)
    (heq : a.rangeCover = b.rangeCover) : a = b := by
  have hlea := h.cover_le ha
  have hfst := congrArg Prod.fst heq
  have hsnd := congrArg Prod.snd heq
  induction h with
  | leaf _ => rw [List.mem_singleton.mp ha, List.mem_singleton.mp hb]
  | @fork k l d left right hd hl hr ihl ihr =>
    have hpos : (0 : ℤ) < 2 ^ k := by positivity
    have hpow : (2 : ℤ) ^ (k + 1) = 2 * 2 ^ k := pow_succ' 2 k
    have hside : ∀ e ∈ nodes (.node d left right),
        e ∈ nodes left ∧ l ≤ e.rangeCover.1 ∧ e.rangeCover.2 < l + 2 ^ k ∨
        e ∈ nodes right ∧ l + 2 ^ k ≤ e.rangeCover.1 ∨ e = d := by
      intro e he
      rcases List.mem_append.mp he with he | he
      · rcases List.mem_append.mp he with he | he
        · have hbounds := hl.bounds he
          exact Or.inl ⟨he, by omega⟩
        · exact Or.inr (Or.inl ⟨he, (hr.bounds he).1⟩)
      · exact Or.inr (Or.inr (List.mem_singleton.mp he))
    rcases hside a ha with ⟨hina, hboundsa⟩ | ⟨hina, hboundsa⟩ | rfl
    · rcases hside b hb with ⟨hinb, _⟩ | ⟨_, hboundsb⟩ | rfl
      · exact ihl hina hinb
      · omega
      · rw [heq, hd] at hboundsa
        dsimp only at hboundsa
        omega
    · rcases hside b hb with ⟨_, hboundsb⟩ | ⟨hinb, _⟩ | rfl
      · omega
      · exact ihr hina hinb
      · rw [heq, hd] at hboundsa
        dsimp only at hboundsa
        omega
    · rw [hd] at heq
      rcases hside b hb with ⟨_, hboundsb⟩ | ⟨_, hboundsb⟩ | rfl
      · rw [← heq] at hboundsb
        dsimp only at hboundsb
        omega
      · rw [← heq] at hboundsb
        dsimp only at hboundsb
        omega
      · rfl

theorem Neighbours.unique {w' B' : ℕ} {left' right' : RangeNode} (h : Neighbours L w B left right)
    (h' : Neighbours L w' B' left' right')
    (heq : left.rangeCover = left'.rangeCover ∨ right.rangeCover = right'.rangeCover) :
    w = w' ∧ B = B' := by
  have hpow : ∀ {u v : ℕ}, (2 : ℤ) ^ u = 2 ^ v → u = v := fun h =>
    Int.pow_right_injective (by decide) h
  rcases heq with heq | heq
  · rw [h.left, h'.left] at heq
    obtain ⟨h₁, h₂⟩ := Prod.mk.inj heq
    exact ⟨hpow (by omega), by omega⟩
  · rw [h.right, h'.right] at heq
    obtain ⟨h₁, h₂⟩ := Prod.mk.inj heq
    exact ⟨hpow (by omega), by omega⟩

theorem Neighbours.ne {w' B' : ℕ} {left' right' : RangeNode} (h : Neighbours L w B left right)
    (h' : Neighbours L w' B' left' right') : left.rangeCover ≠ right'.rangeCover := by
  intro heq
  rw [h.left, h'.right] at heq
  obtain ⟨h₁, h₂⟩ := Prod.mk.inj heq
  have hpow : (2 : ℤ) ^ w = 2 ^ w' := by omega
  have hw : w = w' := Int.pow_right_injective (by decide) hpow
  subst hw
  have hB : B = B' + 2 ^ w := by
    zify
    omega
  exact not_dvd_half h'.aligned (hB ▸ h.aligned)

theorem Paired.link {l : ℤ} (ht : Spans k l t) (hN : Family f (nodes t) start)
    (h : Paired L (nodes t) s) (hl : left ∈ nodes t) (hr : right ∈ nodes t)
    (hpair : Neighbours L w B left right) : Paired L (nodes t) (link s left right) := by
  have hsame : ∀ {a b : RangeNode}, a ∈ nodes t → b ∈ nodes t → a.id = b.id → a = b :=
    fun ha hb => List.inj_on_of_nodup_map hN.nodup ha hb
  constructor
  · intro i p hp
    rw [find?_link] at hp
    split at hp
    · rename_i hi
      cases hp
      refine ⟨w, B, left, right, hl, hr, hpair, hi.symm, ?_⟩
      dsimp only
      rw [hpair.left, hpair.right]
    · exact h.shape i p hp
  · intro w' B' left' right' hl' hr' hpair'
    rw [find?_link, find?_link, h.agree w' B' left' right' hl' hr' hpair']
    -- both are in the new pair or neither is
    have hiff : (left'.id = right.id ∨ left'.id = left.id) ↔
        (right'.id = right.id ∨ right'.id = left.id) := by
      constructor
      · intro hid
        rcases hid with hid | hid
        · exact absurd (congrArg _ (hsame hl' hr hid)) (hpair'.ne hpair)
        · have heq := hsame hl' hl hid
          subst heq
          obtain ⟨rfl, rfl⟩ := hpair.unique hpair' (Or.inl rfl)
          exact Or.inl (congrArg _ (eq_of_cover ht hr' hr (hpair'.right.trans hpair.right.symm)))
      · intro hid
        rcases hid with hid | hid
        · have heq := hsame hr' hr hid
          subst heq
          obtain ⟨rfl, rfl⟩ := hpair.unique hpair' (Or.inr rfl)
          exact Or.inr (congrArg _ (eq_of_cover ht hl' hl (hpair'.left.trans hpair.left.symm)))
        · exact absurd (congrArg _ (hsame hr' hl hid)).symm (hpair.ne hpair')
    rw [if_congr hiff rfl rfl]

theorem Row.width (h : Row L w o level) (hd : d ∈ level) : width d = 2 ^ w := by
  induction h with
  | nil o => cases hd
  | @cons o d' level hcover hrow ih =>
    rcases List.mem_cons.mp hd with rfl | hd
    · rw [RangeTightness.width, hcover]
      dsimp only
      omega
    · exact ih hd

theorem Neighbours.width (h : Neighbours L w B left right) :
    width left = 2 ^ w ∧ width right = 2 ^ w := by
  rw [RangeTightness.width, RangeTightness.width, h.left, h.right]
  dsimp only
  omega

theorem Line.width_le {queue : List T1} (h : Line L k o queue) (ht : t ∈ queue)
    (hd : d ∈ nodes t) : width d ≤ 2 ^ k := by
  induction h with
  | nil o => cases ht
  | @cons o t' queue hspans hline ih =>
    rcases List.mem_cons.mp ht with rfl | ht
    · have hbounds := hspans.bounds hd
      rw [width]
      omega
    · exact ih ht

theorem mem_level {queue : List T1} (ht : t ∈ queue) (hd : d ∈ nodes t) :
    d ∈ queue.filterMap value? ∨ ∃ u ∈ nextLevel queue, d ∈ nodes u := by
  cases t with
  | nil => cases hd
  | node e left right =>
    have hchild : ∀ u, u = left ∨ u = right → d ∈ nodes u → ∃ u ∈ nextLevel queue, d ∈ nodes u := by
      intro u hu hin
      refine ⟨u, List.mem_flatMap.mpr ⟨_, ht, List.mem_filter.mpr ⟨by simpa using hu, ?_⟩⟩, hin⟩
      cases u with
      | nil => cases hin
      | node _ _ _ => rfl
    rcases List.mem_append.mp hd with hd | hd
    · rcases List.mem_append.mp hd with hd | hd
      · exact Or.inr (hchild left (Or.inl rfl) hd)
      · exact Or.inr (hchild right (Or.inr rfl) hd)
    · rw [List.mem_singleton.mp hd]
      exact Or.inl (List.mem_filterMap.mpr ⟨_, ht, rfl⟩)

theorem linkLevel_sets (hrow : Row L w 0 level) (hpair : Neighbours L w B a b)
    (ha : a ∈ level) (hb : b ∈ level) : (linkLevel s level).parents.find? a.id ≠ none := by
  have hpos : (0 : ℤ) < 2 ^ w := by positivity
  have hstart := hrow.start_le ha
  rw [hpair.left] at hstart
  have hfirst : ∀ {d : RangeNode}, d.rangeCover = (L + (0 : ℕ), L + (0 : ℕ) + 2 ^ w - 1) →
      a ≠ d ∧ b ≠ d := by
    intro d hcover
    constructor
    · rintro rfl
      have h := congrArg Prod.fst (hpair.left.symm.trans hcover)
      dsimp only at h
      have hB : B = 0 + 2 ^ w := by
        zify
        omega
      exact not_dvd_half (dvd_zero _) (hB ▸ hpair.aligned)
    · rintro rfl
      have h := congrArg Prod.fst (hpair.right.symm.trans hcover)
      dsimp only at h hstart
      omega
  cases hrow with
  | nil => cases ha
  | @cons _ d level hcover hrow =>
    obtain ⟨hnea, hneb⟩ := hfirst hcover
    rw [Nat.zero_add] at hrow
    refine linkPairs_sets hrow ?_ hpair ((List.mem_cons.mp ha).resolve_left hnea)
      ((List.mem_cons.mp hb).resolve_left hneb)
    rw [pow_succ, Nat.mul_two]

theorem Line.width_lt {queue : List T1} (h : Line L k o queue) (ht : t ∈ nextLevel queue)
    (hd : d ∈ nodes t) : RangeTightness.width d < 2 ^ k := by
  cases k with
  | zero =>
    rw [h.next_zero] at ht
    cases ht
  | succ k =>
    have hle := h.next.width_le ht hd
    have hpos : (0 : ℤ) < 2 ^ k := by positivity
    rw [pow_succ]
    omega

theorem levels_sets {queue : List T1} (hline : Line L k 0 queue) (hpair : Neighbours L w B a b)
    (ha : ∃ t ∈ queue, a ∈ nodes t) (hb : ∃ t ∈ queue, b ∈ nodes t) :
    ((levels queue).foldl linkLevel s).parents.find? a.id ≠ none := by
  obtain ⟨hwa, hwb⟩ := hpair.width
  induction queue using levels.induct generalizing k s with
  | case1 =>
    obtain ⟨_, ht, _⟩ := ha
    cases ht
  | case2 queue hne ih =>
    rw [levels, dif_neg hne, List.foldl_cons]
    obtain ⟨ta, hta, hina⟩ := ha
    obtain ⟨tb, htb, hinb⟩ := hb
    rcases mem_level hta hina with hrowa | ⟨ua, hua, hnexta⟩
    · have hwidth := hline.row.width hrowa
      have hw : w = k := Int.pow_right_injective (by decide) (hwa.symm.trans hwidth)
      subst hw
      rcases mem_level htb hinb with hrowb | ⟨ub, hub, hnextb⟩
      · exact levels_mono (linkLevel_sets hline.row hpair hrowa hrowb)
      · exact absurd hwb (hline.width_lt hub hnextb).ne
    · rcases mem_level htb hinb with hrowb | ⟨ub, hub, hnextb⟩
      · have hlt := hline.width_lt hua hnexta
        have hwidth := hline.row.width hrowb
        omega
      · -- both are below the level
        cases k with
        | zero =>
          rw [hline.next_zero] at hua
          cases hua
        | succ k => exact ih hline.next ⟨ua, hua, hnexta⟩ ⟨ub, hub, hnextb⟩

structure Augments (f : ℤ → List ℕ) (L : ℤ) (N : List RangeNode) (start : ℕ) (s : Links) :
    Prop where
  family : Family f N start
  linked : Linked f N start s
  joined : Joined N s
  paired : Paired L N s
  present : ∀ w B left right, left ∈ N → right ∈ N → Neighbours L w B left right →
    s.parents.find? left.id ≠ none

theorem buildTreeT1_augments {c : ℕ} {built : T1 × ℕ} (hbuilds : Builds f k L c built) :
    Augments f L (nodes built.1) built.2 (addInternalNodesForTreeT1 built.1 built.2) := by
  obtain ⟨hfamily, hlinked, hjoined⟩ := buildTreeT1_links hbuilds
  have hline : Line L k 0 [built.1] := .cons (by simpa using hbuilds.spans) (.nil _)
  have hempty : Paired L (nodes built.1) ⟨.empty, built.2⟩ := by
    constructor <;> simp
  refine ⟨hfamily, hlinked, hjoined, ?_, ?_⟩
  · refine levels_keeps (fun s w B left right hl hr hpair h =>
      h.link hbuilds.spans hfamily hl hr hpair) hempty hline ?_
    intro t ht
    rw [List.mem_singleton.mp ht]
    exact List.Subset.refl _
  · intro w B left right hl hr hpair
    exact levels_sets hline hpair ⟨_, List.mem_singleton_self _, hl⟩
      ⟨_, List.mem_singleton_self _, hr⟩

theorem Augments.neighbours (h : Augments f L N start s) (ha : a ∈ N) (hb : b ∈ N)
    (hp : s.parents.find? a.id = some p) (hq : s.parents.find? b.id = some q)
    (hid : p.id = q.id) (hlt : a.rangeCover.2 < b.rangeCover.1) :
    ∃ w B, Neighbours L w B a b := by
  have hsame : ∀ {a b : RangeNode}, a ∈ N → b ∈ N → a.id = b.id → a = b :=
    fun ha hb => List.inj_on_of_nodup_map h.family.nodup ha hb
  have heq := h.linked.unique _ _ p q hp hq hid
  subst heq
  obtain ⟨w, B, left, right, hl, hr, hpair, hia, hcover⟩ := h.paired.shape _ _ hp
  obtain ⟨w', B', left', right', hl', hr', hpair', hib, hcover'⟩ := h.paired.shape _ _ hq
  rw [hcover] at hcover'
  obtain ⟨h₁, h₂⟩ := Prod.mk.inj hcover'
  have hpow : (2 : ℤ) ^ w = 2 ^ w' := by omega
  have hw : w = w' := Int.pow_right_injective (by decide) hpow
  have hB : B = B' := by omega
  subst hw hB
  have hpos : (0 : ℤ) < 2 ^ w := by positivity
  refine ⟨w, B, ?_⟩
  rcases hia with hia | hia
  · rw [hsame ha hl hia] at hlt ⊢
    rcases hib with hib | hib
    · rw [hsame hb hl' hib, hpair.left, hpair'.left] at hlt
      dsimp only at hlt
      omega
    · rw [hsame hb hr' hib]
      exact ⟨hpair.left, hpair'.right, hpair.aligned⟩
  · rw [hsame ha hr hia, hpair.right] at hlt
    rcases hib with hib | hib
    · rw [hsame hb hl' hib, hpair'.left] at hlt
      dsimp only at hlt
      omega
    · rw [hsame hb hr' hib, hpair'.right] at hlt
      dsimp only at hlt
      omega

/-- Neighbours have one parent, which is as wide as both. -/
theorem Augments.parent (h : Augments f L N start s) (ha : a ∈ N) (hb : b ∈ N)
    (hpair : Neighbours L w B a b) :
    ∃ p, s.parents.find? a.id = some p ∧ s.parents.find? b.id = some p ∧
      p.rangeCover = (L + B - 2 ^ w, L + B + 2 ^ w - 1) := by
  obtain ⟨p, hp⟩ := Option.ne_none_iff_exists'.mp (h.present w B a b ha hb hpair)
  have hq := (h.paired.agree w B a b ha hb hpair).symm.trans hp
  obtain ⟨w', B', left, right, hl, hr, hpair', hid, hcover⟩ := h.paired.shape _ _ hp
  refine ⟨p, hp, hq, ?_⟩
  have hsame : ∀ {b : RangeNode}, b ∈ N → a.id = b.id → a = b :=
    fun hb => List.inj_on_of_nodup_map h.family.nodup ha hb
  rcases hid with hid | hid
  · rw [← hsame hl hid] at hpair'
    obtain ⟨rfl, rfl⟩ := hpair.unique hpair' (Or.inl rfl)
    exact hcover
  · exact absurd (congrArg _ (hsame hr hid)) (hpair.ne hpair')

section Search

variable {parents : Dict ℕ RangeNode} {lt rt : T1} {lo hi mid : ℤ}

theorem cover_right (hw : d.rangeCover.2 - 1 ≠ d.rangeCover.1)
    (hmid : (d.rangeCover.1 + d.rangeCover.2) / 2 = mid) (h : mid < lo) :
    singleRangeCover parents (.node d lt rt) lo hi = singleRangeCover parents rt lo hi := by
  rw [singleRangeCover]
  simp only [hmid, if_neg hw, if_pos h]

theorem cover_left (hw : d.rangeCover.2 - 1 ≠ d.rangeCover.1)
    (hmid : (d.rangeCover.1 + d.rangeCover.2) / 2 = mid) (hlo : lo ≤ mid) (h : hi ≤ mid) :
    singleRangeCover parents (.node d lt rt) lo hi = singleRangeCover parents lt lo hi := by
  rw [singleRangeCover]
  simp only [hmid, if_neg hw, if_neg hlo.not_gt, if_pos h]

variable (hw : d.rangeCover.2 - 1 ≠ d.rangeCover.1)
  (hmid : (d.rangeCover.1 + d.rangeCover.2) / 2 = mid) (hlo : lo ≤ mid) (hhi : mid < hi)
  (ha : singleRangeCover parents lt lo mid = some a)
  (hb : singleRangeCover parents rt (mid + 1) hi = some b)
include hw hmid hlo hhi ha hb

theorem cover_merged (hp : parents.find? a.id = some p) (hq : parents.find? b.id = some p) :
    singleRangeCover parents (.node d lt rt) lo hi = some p := by
  rw [singleRangeCover]
  simp only [hmid, if_neg hw, if_neg hlo.not_gt, if_neg hhi.not_ge, ha, hb, hp, hq,
    Option.bind_eq_bind, Option.bind_some, if_true, Option.pure_def]

theorem cover_unmerged (hne : ∀ p q, parents.find? a.id = some p → parents.find? b.id = some q →
    p.id ≠ q.id) : singleRangeCover parents (.node d lt rt) lo hi = some d := by
  rw [singleRangeCover]
  simp only [hmid, if_neg hw, if_neg hlo.not_gt, if_neg hhi.not_ge, ha, hb,
    Option.bind_eq_bind, Option.bind_some, Option.pure_def]
  cases hp : parents.find? a.id with
  | none => rfl
  | some p =>
    cases hq : parents.find? b.id with
    | none => rfl
    | some q => simp only [if_neg (hne p q hp hq)]

end Search

theorem Spans.halves (h : Spans (m + 2) (L + o) t) : ∃ d lt rt, t = .node d lt rt ∧
    d.rangeCover = (L + o, L + o + 2 ^ (m + 2) - 1) ∧
    Spans (m + 1) (L + o) lt ∧ Spans (m + 1) (L + (o + 2 ^ (m + 1) : ℕ)) rt ∧
    d.rangeCover.2 - 1 ≠ d.rangeCover.1 ∧
    (d.rangeCover.1 + d.rangeCover.2) / 2 = L + (o + 2 ^ (m + 1) : ℕ) - 1 := by
  have hpos : (0 : ℤ) < 2 ^ m := by positivity
  have hpow₁ : (2 : ℤ) ^ (m + 1) = 2 * 2 ^ m := pow_succ' 2 m
  have hpow₂ : (2 : ℤ) ^ (m + 2) = 2 * 2 ^ (m + 1) := pow_succ' 2 (m + 1)
  cases h with
  | @fork _ _ d lt rt hd hl hr =>
    refine ⟨d, lt, rt, rfl, hd, hl, ?_, ?_, ?_⟩
    · push_cast
      rw [← add_assoc]
      exact hr
    · rw [hd]
      dsimp only
      omega
    · rw [hd]
      push_cast
      omega

/-- The level at which the search stops in a half of which the query has `n` values. -/
def halfLevel (n : ℕ) : ℕ := max 1 (Nat.clog 2 n)

theorem halfLevel_eq {n m : ℕ} (h₁ : 2 ^ m < n) (h₂ : n ≤ 2 ^ (m + 1)) : halfLevel n = m + 1 := by
  have hclog : Nat.clog 2 n = m + 1 := by
    apply le_antisymm
    · exact Nat.clog_le_of_le_pow h₂
    · exact (Nat.lt_clog_iff_pow_lt (by decide)).mpr h₁
  rw [halfLevel, hclog]
  omega

theorem halfLevel_le {n m : ℕ} (h : n ≤ 2 ^ (m + 1)) : halfLevel n ≤ m + 1 :=
  max_le (Nat.le_add_left 1 m) (Nat.clog_le_of_le_pow h)

theorem halfLevel_two {n : ℕ} (h : n ≤ 2) : halfLevel n = 1 := by
  have hclog : Nat.clog 2 n ≤ 1 := Nat.clog_le_of_le_pow (by simpa using h)
  rw [halfLevel]
  omega

theorem not_neighbours_half (ho : 2 ^ (m + 2) ∣ o)
    (hwidth : width a = 2 ^ (m + 1) ∨ width b = 2 ^ (m + 1))
    (ha : a.rangeCover.2 = L + (o + 2 ^ (m + 1) : ℕ) - 1) : ¬ Neighbours L w B a b := by
  intro h
  have hw : w = m + 1 := by
    rcases hwidth with hwidth | hwidth
    · exact Int.pow_right_injective (by decide) (h.width.1.symm.trans hwidth)
    · exact Int.pow_right_injective (by decide) (h.width.2.symm.trans hwidth)
  subst hw
  rw [h.left] at ha
  have hB : B = o + 2 ^ (m + 1) := by
    zify
    push_cast at ha
    omega
  exact not_dvd_half ho (hB ▸ h.aligned)

/-- The level of the node that answers a query from `x` to `y`, counted from the first value. -/
def coverLevel (x y : ℕ) : ℕ :=
  if halfLevel (lowPart x y) = halfLevel (highPart x y) ∧ halfLevel (lowPart x y) + 2 ≤ fork x y
  then halfLevel (lowPart x y) + 1
  else fork x y

section Halves

variable (h : Augments f L N start s)
include h

theorem cover_suffix (ht : Spans (m + 1) (L + o) t) (hsub : nodes t ⊆ N) (ho : 2 ^ (m + 1) ∣ o)
    (hlo : o ≤ x) (hlt : x < o + 2 ^ (m + 1)) :
    ∃ d ∈ N, singleRangeCover s.parents t (L + x) (L + (o + 2 ^ (m + 1) : ℕ) - 1) = some d ∧
      d.rangeCover = (L + (o + 2 ^ (m + 1) : ℕ) - 2 ^ halfLevel (o + 2 ^ (m + 1) - x),
        L + (o + 2 ^ (m + 1) : ℕ) - 1) := by
  induction m generalizing o x t with
  | zero =>
    obtain ⟨d, hmem, hd, hfind⟩ := cover_pair ht
    refine ⟨d, hsub hmem, hfind _ _, ?_⟩
    rw [halfLevel_two (by omega), hd]
    push_cast
    congr 1 <;> ring
  | succ m ih =>
    have hpow : 2 ^ (m + 2) = 2 * 2 ^ (m + 1) := pow_succ' 2 (m + 1)
    have hhalf : 2 ^ (m + 1) ∣ o := dvd_trans (pow_dvd_pow 2 (Nat.le_succ _)) ho
    have hend : o + 2 ^ (m + 2) = o + 2 ^ (m + 1) + 2 ^ (m + 1) := by omega
    have hpos : 0 < 2 ^ (m + 1) := by positivity
    obtain ⟨d, lt, rt, rfl, hd, hl, hr, hwd, hmid⟩ := Spans.halves ht
    have hsubl : nodes lt ⊆ N := fun a ha => hsub (by simp [nodes, ha])
    have hsubr : nodes rt ⊆ N := fun a ha => hsub (by simp [nodes, ha])
    by_cases hright : o + 2 ^ (m + 1) ≤ x
    · rw [cover_right hwd hmid (by omega), hend]
      exact ih hr hsubr (Nat.dvd_add hhalf dvd_rfl) hright (by omega)
    · obtain ⟨a, ha, hfinda, hcovera⟩ := ih hl hsubl hhalf hlo (by omega)
      obtain ⟨b, hb, hfindb, hcoverb⟩ := ih hr hsubr (Nat.dvd_add hhalf dvd_rfl) le_rfl (by omega)
      have hwhole : halfLevel (o + 2 ^ (m + 1) + 2 ^ (m + 1) - (o + 2 ^ (m + 1))) = m + 1 :=
        halfLevel_eq (by rw [Nat.add_sub_cancel_left]; exact Nat.pow_lt_pow_succ (by decide))
          (by omega)
      have hwb : width b = 2 ^ (m + 1) := by
        rw [width, hcoverb, hwhole]
        dsimp only
        omega
      have haend : a.rangeCover.2 = L + (o + 2 ^ (m + 1) : ℕ) - 1 := by rw [hcovera]
      refine ⟨d, hsub mem_nodes_root, ?_, ?_⟩
      · refine cover_unmerged (a := a) (b := b) hwd hmid (by omega) (by omega) hfinda ?_ ?_
        · rw [sub_add_cancel, hend]
          exact hfindb
        · -- one of the two nodes is a whole half, and halves are not neighbours
          intro p q hp hq hid
          obtain ⟨w, B, hpair⟩ := h.neighbours ha hb hp hq hid (by
            rw [haend, hcoverb, hwhole]
            push_cast
            omega)
          exact not_neighbours_half ho (Or.inr hwb) haend hpair
      · rw [halfLevel_eq (m := m + 1) (by omega) (by omega), hd]
        push_cast
        congr 1 <;> ring

theorem cover_prefix (ht : Spans (m + 1) (L + o) t) (hsub : nodes t ⊆ N) (ho : 2 ^ (m + 1) ∣ o)
    (hlo : o ≤ y) (hlt : y < o + 2 ^ (m + 1)) :
    ∃ d ∈ N, singleRangeCover s.parents t (L + o) (L + y) = some d ∧
      d.rangeCover = (L + o, L + o + 2 ^ halfLevel (y + 1 - o) - 1) := by
  induction m generalizing o y t with
  | zero =>
    obtain ⟨d, hmem, hd, hfind⟩ := cover_pair ht
    refine ⟨d, hsub hmem, hfind _ _, ?_⟩
    rw [halfLevel_two (by omega), hd]
  | succ m ih =>
    have hpow : 2 ^ (m + 2) = 2 * 2 ^ (m + 1) := pow_succ' 2 (m + 1)
    have hhalf : 2 ^ (m + 1) ∣ o := dvd_trans (pow_dvd_pow 2 (Nat.le_succ _)) ho
    have hpos : 0 < 2 ^ (m + 1) := by positivity
    obtain ⟨d, lt, rt, rfl, hd, hl, hr, hwd, hmid⟩ := Spans.halves ht
    have hsubl : nodes lt ⊆ N := fun a ha => hsub (by simp [nodes, ha])
    have hsubr : nodes rt ⊆ N := fun a ha => hsub (by simp [nodes, ha])
    by_cases hleft : y < o + 2 ^ (m + 1)
    · rw [cover_left hwd hmid (by omega) (by omega)]
      exact ih hl hsubl hhalf hlo hleft
    · obtain ⟨a, ha, hfinda, hcovera⟩ := ih (y := o + 2 ^ (m + 1) - 1) hl hsubl hhalf
        (by omega) (by omega)
      obtain ⟨b, hb, hfindb, hcoverb⟩ := ih hr hsubr (Nat.dvd_add hhalf dvd_rfl)
        (not_lt.mp hleft) (by omega)
      have hwhole : halfLevel (o + 2 ^ (m + 1) - 1 + 1 - o) = m + 1 :=
        halfLevel_eq (by
          have hlt : 2 ^ m < 2 ^ (m + 1) := Nat.pow_lt_pow_succ (by decide)
          omega) (by omega)
      rw [hwhole] at hcovera
      have hwa : width a = 2 ^ (m + 1) := by
        rw [width, hcovera]
        dsimp only
        omega
      have haend : a.rangeCover.2 = L + (o + 2 ^ (m + 1) : ℕ) - 1 := by
        rw [hcovera]
        push_cast
        ring
      have hmidy : L + ((o + 2 ^ (m + 1) - 1 : ℕ) : ℤ) = L + (o + 2 ^ (m + 1) : ℕ) - 1 := by omega
      refine ⟨d, hsub mem_nodes_root, ?_, ?_⟩
      · refine cover_unmerged (a := a) (b := b) hwd hmid (by omega) (by omega) ?_ ?_ ?_
        · rw [← hmidy]
          exact hfinda
        · rw [sub_add_cancel]
          exact hfindb
        · intro p q hp hq hid
          obtain ⟨w, B, hpair⟩ := h.neighbours ha hb hp hq hid (by
            rw [haend, hcoverb]
            dsimp only
            omega)
          exact not_neighbours_half ho (Or.inl hwa) haend hpair
      · rw [halfLevel_eq (m := m + 1) (by omega) (by omega), hd]

theorem cover_level (ht : Spans (m + 1) (L + o) t) (hsub : nodes t ⊆ N) (ho : 2 ^ (m + 1) ∣ o)
    (hlo : o ≤ x) (hlt : x < y) (hhi : y < o + 2 ^ (m + 1)) :
    ∃ d, singleRangeCover s.parents t (L + x) (L + y) = some d ∧
      width d = 2 ^ coverLevel x y := by
  induction m generalizing o t with
  | zero =>
    have hsplits : Splits x y 0 o := ⟨hlo, by omega, by omega, by omega, ho⟩
    obtain ⟨d, _, hd, hfind⟩ := cover_pair ht
    refine ⟨d, hfind _ _, ?_⟩
    rw [coverLevel, hsplits.fork, if_neg (by omega), width, hd]
    dsimp only
    omega
  | succ m ih =>
    have hpow : 2 ^ (m + 2) = 2 * 2 ^ (m + 1) := pow_succ' 2 (m + 1)
    have hhalf : 2 ^ (m + 1) ∣ o := dvd_trans (pow_dvd_pow 2 (Nat.le_succ _)) ho
    obtain ⟨d, lt, rt, rfl, hd, hl, hr, hwd, hmid⟩ := Spans.halves ht
    have hsubl : nodes lt ⊆ N := fun a ha => hsub (by simp [nodes, ha])
    have hsubr : nodes rt ⊆ N := fun a ha => hsub (by simp [nodes, ha])
    by_cases hright : o + 2 ^ (m + 1) ≤ x
    · rw [cover_right hwd hmid (by omega)]
      exact ih hr hsubr (Nat.dvd_add hhalf dvd_rfl) hright (by omega)
    · by_cases hleft : y < o + 2 ^ (m + 1)
      · rw [cover_left hwd hmid (by omega) (by omega)]
        exact ih hl hsubl hhalf hlo hleft
      · -- the query has values in both halves
        have hsplits : Splits x y (m + 1) o := ⟨hlo, by omega, by omega, by omega, ho⟩
        obtain ⟨a, ha, hfinda, hcovera⟩ := cover_suffix h hl hsubl hhalf hlo (by omega)
        obtain ⟨b, hb, hfindb, hcoverb⟩ := cover_prefix h hr hsubr (Nat.dvd_add hhalf dvd_rfl)
          (not_lt.mp hleft) (by omega)
        rw [← hsplits.lowPart] at hcovera
        rw [← hsplits.highPart] at hcoverb
        have hilow : halfLevel (lowPart x y) ≤ m + 1 :=
          halfLevel_le (by rw [hsplits.lowPart]; omega)
        rw [← sub_add_cancel (L + ((o + 2 ^ (m + 1) : ℕ) : ℤ)) 1] at hfindb
        rw [coverLevel, hsplits.fork]
        generalize halfLevel (lowPart x y) = i at hcovera hilow ⊢
        generalize halfLevel (highPart x y) = j at hcoverb ⊢
        by_cases hc : i = j ∧ i + 2 ≤ m + 1 + 1
        · obtain ⟨rfl, hle⟩ := hc
          have hpair : Neighbours L i (o + 2 ^ (m + 1)) a b := by
            refine ⟨hcovera, hcoverb, Nat.dvd_add ?_ ?_⟩
            · exact dvd_trans (pow_dvd_pow 2 (by omega)) ho
            · exact pow_dvd_pow 2 (by omega)
          obtain ⟨p, hp, hq, hcover⟩ := h.parent ha hb hpair
          refine ⟨p, cover_merged hwd hmid (by omega) (by omega) hfinda hfindb hp hq, ?_⟩
          rw [if_pos ⟨rfl, hle⟩, width, hcover, pow_succ]
          dsimp only
          ring
        · refine ⟨d, cover_unmerged (a := a) (b := b) hwd hmid (by omega) (by omega) hfinda
            hfindb ?_, ?_⟩
          · intro p q hp hq hid
            obtain ⟨w, B, hpair⟩ := h.neighbours ha hb hp hq hid (by
              rw [hcovera, hcoverb]
              dsimp only
              omega)
            have hwa : width a = 2 ^ i := by
              rw [width, hcovera]
              dsimp only
              ring
            have hwb : width b = 2 ^ j := by
              rw [width, hcoverb]
              dsimp only
              ring
            have hi : w = i := Int.pow_right_injective (by decide) (hpair.width.1.symm.trans hwa)
            have hj : w = j := Int.pow_right_injective (by decide) (hpair.width.2.symm.trans hwb)
            have him : i ≠ m + 1 := by
              rintro rfl
              exact not_neighbours_half ho (Or.inl hwa) (by rw [hcovera]) hpair
            exact hc ⟨hi.symm.trans hj, by omega⟩
          · rw [if_neg hc, width, hd]
            dsimp only
            ring

end Halves

def tightLevel (x y : ℕ) : ℕ := Nat.clog 2 (max (lowPart x y) (highPart x y)) + 1

/-- The query has more than a quarter of the smallest block with it in one half of the block, or
has numbers of values in the two halves that round up to one power of two from two on. -/
def Tight (x y : ℕ) : Prop :=
  2 ^ fork x y < 4 * max (lowPart x y) (highPart x y) ∨
    2 ≤ max (lowPart x y) (highPart x y) ∧ halfLevel (lowPart x y) = halfLevel (highPart x y)

instance (x y : ℕ) : Decidable (Tight x y) := inferInstanceAs (Decidable (_ ∨ _))

theorem tightLevel_le_fork (hsplits : Splits x y n o) : tightLevel x y ≤ n + 1 := by
  have hlow := hsplits.lowPart
  have hhigh := hsplits.highPart
  obtain ⟨hstart, hx, hy, hstop, _⟩ := hsplits
  exact Nat.succ_le_succ (Nat.clog_le_of_le_pow (by omega))

/-- A query has more than a quarter of a block in one half iff that needs a whole half. -/
theorem quarter_iff (hsplits : Splits x y n o) :
    2 ^ fork x y < 4 * max (lowPart x y) (highPart x y) ↔ n + 1 ≤ tightLevel x y := by
  have hlow := hsplits.lowPart
  have hx := hsplits.low
  rw [hsplits.fork, tightLevel, Nat.succ_le_succ_iff]
  cases n with
  | zero => omega
  | succ n =>
    have hpow : 2 ^ (n + 1 + 1) = 4 * 2 ^ n := by ring
    rw [hpow, Nat.succ_le_iff, Nat.lt_clog_iff_pow_lt (by decide)]
    omega

theorem coverLevel_le_iff (hsplits : Splits x y n o) :
    coverLevel x y ≤ tightLevel x y ↔ Tight x y := by
  have hle := tightLevel_le_fork hsplits
  have htwo : 2 ≤ max (lowPart x y) (highPart x y) ↔
      1 ≤ Nat.clog 2 (max (lowPart x y) (highPart x y)) := by
    have hpow := Nat.lt_clog_iff_pow_lt (b := 2) (by decide) (y := 0)
      (x := max (lowPart x y) (highPart x y))
    rw [pow_zero] at hpow
    omega
  have hmax : Nat.clog 2 (max (lowPart x y) (highPart x y)) =
      max (Nat.clog 2 (lowPart x y)) (Nat.clog 2 (highPart x y)) :=
    (Nat.clog_monotone 2).map_max
  rw [Tight, quarter_iff hsplits, htwo]
  rw [coverLevel, hsplits.fork]
  by_cases hc : halfLevel (lowPart x y) = halfLevel (highPart x y) ∧
      halfLevel (lowPart x y) + 2 ≤ n + 1
  · rw [if_pos hc]
    simp only [tightLevel, halfLevel, hmax] at hc hle ⊢
    omega
  · rw [if_neg hc]
    simp only [tightLevel, halfLevel, hmax] at hc hle ⊢
    omega

theorem exists_node (ht : Spans k (L + o) t) {o' : ℕ} (ho : 2 ^ k ∣ o) (hw : 2 ^ w ∣ o')
    (hlo : o ≤ o') (hhi : o' + 2 ^ w ≤ o + 2 ^ k) :
    ∃ d ∈ nodes t, d.rangeCover = (L + o', L + o' + 2 ^ w - 1) := by
  have hpos : 0 < 2 ^ w := by positivity
  induction k generalizing o t with
  | zero =>
    obtain ⟨d, lt, rt, rfl, hd⟩ := ht.root
    have hw : 2 ^ w = 1 := by omega
    have heq : o' = o := by omega
    refine ⟨d, mem_nodes_root, ?_⟩
    rw [hd, heq]
    zify at hw
    rw [hw, pow_zero]
  | succ k ih =>
    cases ht with
    | @fork _ _ d lt rt hd hl hr =>
    have hpow : 2 ^ (k + 1) = 2 * 2 ^ k := pow_succ' 2 k
    have hhalf : 2 ^ k ∣ o := dvd_trans (pow_dvd_pow 2 (Nat.le_succ k)) ho
    by_cases hwhole : w = k + 1
    · subst hwhole
      have heq : o' = o := by omega
      rw [heq]
      exact ⟨d, mem_nodes_root, hd⟩
    · have hwk : w ≤ k := by
        have hle : 2 ^ w ≤ 2 ^ (k + 1) := by omega
        have hle := (Nat.pow_le_pow_iff_right (by decide)).mp hle
        omega
      by_cases hleft : o' < o + 2 ^ k
      · have hdvd : 2 ^ w ∣ o + 2 ^ k - o' :=
          Nat.dvd_sub (dvd_trans (pow_dvd_pow 2 hwk) (Nat.dvd_add hhalf dvd_rfl)) hw
        have hle := Nat.le_of_dvd (by omega) hdvd
        obtain ⟨e, he, hcover⟩ := ih hl hhalf hlo (by omega)
        exact ⟨e, by simp [nodes, he], hcover⟩
      · rw [add_assoc, ← Nat.cast_ofNat, ← Nat.cast_pow, ← Nat.cast_add] at hr
        obtain ⟨e, he, hcover⟩ := ih hr (Nat.dvd_add hhalf dvd_rfl) (by omega) (by omega)
        exact ⟨e, by simp [nodes, he], hcover⟩

theorem node_block (ht : Spans k (L + o) t) (ho : 2 ^ k ∣ o) (hd : d ∈ nodes t) :
    ∃ w o', 2 ^ w ∣ o' ∧ d.rangeCover = (L + (o' : ℕ), L + (o' : ℕ) + 2 ^ w - 1) := by
  induction k generalizing o t with
  | zero =>
    cases ht with
    | leaf h =>
      refine ⟨0, o, by simp, ?_⟩
      rw [List.mem_singleton.mp hd, h]
      simp
  | succ k ih =>
    cases ht with
    | @fork _ _ e lt rt he hl hr =>
    have hhalf : 2 ^ k ∣ o := dvd_trans (pow_dvd_pow 2 (Nat.le_succ k)) ho
    rcases List.mem_append.mp hd with hd | hd
    · rcases List.mem_append.mp hd with hd | hd
      · exact ih hl hhalf hd
      · rw [add_assoc, ← Nat.cast_ofNat, ← Nat.cast_pow, ← Nat.cast_add] at hr
        exact ih hr (Nat.dvd_add hhalf dvd_rfl) hd
    · rw [List.mem_singleton.mp hd]
      exact ⟨k + 1, o, ho, he⟩

section Narrowest

variable (h : Augments f L (nodes t) start s)
include h

theorem width_ge (ht : Spans k L t) (hsplits : Splits x y n o) (hxy : x < y)
    (hd : d ∈ nodes t ∨ ∃ i, s.parents.find? i = some d)
    (hlo : d.rangeCover.1 ≤ L + x) (hhi : L + y ≤ d.rangeCover.2) :
    2 ^ tightLevel x y ≤ width d := by
  have hzero : Spans k (L + (0 : ℕ)) t := by simpa using ht
  have hlevel := tightLevel_le_fork hsplits
  rcases hd with hd | ⟨i, hp⟩
  · obtain ⟨w, o', hw, hcover⟩ := node_block hzero (dvd_zero _) hd
    rw [hcover] at hlo hhi
    dsimp only at hlo hhi
    have hfork : fork x y ≤ w := fork_le_of_block hw (by omega) hxy.le (by
      zify
      omega)
    rw [hsplits.fork] at hfork
    rw [width, hcover]
    have hpow := pow_le_pow_right₀ (by decide : (1 : ℤ) ≤ 2) (hlevel.trans hfork)
    dsimp only
    omega
  · obtain ⟨w, B, left, right, _, _, hpair, _, hcover⟩ := h.paired.shape i d hp
    rw [hcover] at hlo hhi
    dsimp only at hlo hhi
    have hleft : B ≤ x + 2 ^ w := by
      zify
      omega
    have hright : y < B + 2 ^ w := by
      zify
      omega
    have hlow := hsplits.lowPart
    have hhigh := hsplits.highPart
    have hhalf : max (lowPart x y) (highPart x y) ≤ 2 ^ w := by
      obtain ⟨hstart, hx, hy, hstop, ho⟩ := hsplits
      by_cases hnw : n ≤ w
      · have hpow : 2 ^ n ≤ 2 ^ w := Nat.pow_le_pow_right (by decide) hnw
        omega
      · -- the parent joins its children where the block has its middle
        have hmid : 2 ^ (w + 1) ∣ o + 2 ^ n :=
          Nat.dvd_add (dvd_trans (pow_dvd_pow 2 (by omega)) ho) (pow_dvd_pow 2 (by omega))
        have hpow : 2 ^ (w + 1) = 2 * 2 ^ w := pow_succ' 2 w
        have hB : B = o + 2 ^ n := eq_of_dvd_of_lt hpair.aligned hmid (by omega) (by omega)
        omega
    have hle : tightLevel x y ≤ w + 1 := Nat.succ_le_succ (Nat.clog_le_of_le_pow hhalf)
    have hpow := pow_le_pow_right₀ (by decide : (1 : ℤ) ≤ 2) hle
    rw [width, hcover]
    rw [pow_succ 2 w] at hpow
    dsimp only
    omega

theorem exists_narrowest (ht : Spans k L t) (hsplits : Splits x y n o)
    (hfit : o + 2 * 2 ^ n ≤ 2 ^ k) :
    ∃ d, (d ∈ nodes t ∨ ∃ i, s.parents.find? i = some d) ∧ d.rangeCover.1 ≤ L + x ∧
      L + y ≤ d.rangeCover.2 ∧ width d = 2 ^ tightLevel x y := by
  have hzero : Spans k (L + (0 : ℕ)) t := by simpa using ht
  have hpow : 2 ^ (n + 1) = 2 * 2 ^ n := pow_succ' 2 n
  have hlow := hsplits.lowPart
  have hhigh := hsplits.highPart
  have hlevel := tightLevel_le_fork hsplits
  obtain ⟨hstart, hx, hy, hstop, ho⟩ := hsplits
  by_cases hwhole : tightLevel x y = n + 1
  · obtain ⟨d, hd, hcover⟩ := exists_node hzero (dvd_zero _) ho (Nat.zero_le _) (by omega)
    refine ⟨d, Or.inl hd, ?_, ?_, ?_⟩
    · rw [hcover]
      dsimp only
      omega
    · rw [hcover]
      zify at hpow hstop
      dsimp only
      omega
    · rw [hwhole, width, hcover]
      dsimp only
      ring
  · -- the parent of the two nodes that meet in the middle of the block
    obtain ⟨u, hu⟩ : ∃ u, u = Nat.clog 2 (max (lowPart x y) (highPart x y)) := ⟨_, rfl⟩
    have hun : u + 1 ≤ n := by
      rw [tightLevel, ← hu] at hlevel hwhole
      omega
    have hmax : max (lowPart x y) (highPart x y) ≤ 2 ^ u := hu ▸ Nat.le_pow_clog (by decide) _
    have hpowu : 2 ^ (u + 1) = 2 * 2 ^ u := pow_succ' 2 u
    have hlt : 2 ^ (u + 1) ≤ 2 ^ n := Nat.pow_le_pow_right (by decide) hun
    have hmid : 2 ^ (u + 1) ∣ o + 2 ^ n :=
      Nat.dvd_add (dvd_trans (pow_dvd_pow 2 (by omega)) ho) (pow_dvd_pow 2 hun)
    have hhalf : 2 ^ u ∣ o + 2 ^ n := dvd_trans (pow_dvd_pow 2 (Nat.le_succ u)) hmid
    have hleft : 2 ^ u ∣ o + 2 ^ n - 2 ^ u := Nat.dvd_sub hhalf dvd_rfl
    obtain ⟨a, ha, hcovera⟩ := exists_node hzero (dvd_zero _) hleft (Nat.zero_le _) (by omega)
    obtain ⟨b, hb, hcoverb⟩ := exists_node hzero (dvd_zero _) hhalf (Nat.zero_le _) (by omega)
    have hpair : Neighbours L u (o + 2 ^ n) a b := by
      refine ⟨?_, hcoverb, hmid⟩
      rw [hcovera, Nat.cast_sub (by omega)]
      push_cast
      congr 1 <;> ring
    obtain ⟨p, hp, _, hcover⟩ := h.parent ha hb hpair
    refine ⟨p, Or.inr ⟨_, hp⟩, ?_, ?_, ?_⟩
    · rw [hcover]
      zify at hmax hlow hx
      dsimp only
      omega
    · rw [hcover]
      zify at hmax hhigh hy
      dsimp only
      omega
    · rw [tightLevel, ← hu, width, hcover, pow_succ]
      dsimp only
      ring

end Narrowest

/-- The answer to a query, a node over the query as narrow as there is, and how wide both are. -/
theorem coverOf_level (memory : List (Str × ℕ)) (context : Str) (k : ℕ) (L : ℤ) (counter : ℕ)
    (hxy : x < y) (hy : y < 2 ^ (k + 1)) :
    (∃ d, coverOf memory context L (L + 2 ^ (k + 1) - 1) counter (L + x) (L + y) = some d ∧
      width d = 2 ^ coverLevel x y) ∧
    (∃ e, Augmented memory context L (L + 2 ^ (k + 1) - 1) counter e ∧
      e.rangeCover.1 ≤ L + x ∧ L + y ≤ e.rangeCover.2 ∧ width e = 2 ^ tightLevel x y) ∧
    ∀ e, Augmented memory context L (L + 2 ^ (k + 1) - 1) counter e →
      e.rangeCover.1 ≤ L + x → L + y ≤ e.rangeCover.2 → 2 ^ tightLevel x y ≤ width e := by
  have hbuilds := buildTreeT1_builds memory context (k + 1) L counter
  simp only [coverOf, Augmented]
  generalize buildTreeT1 memory context L (L + 2 ^ (k + 1) - 1) counter = built at hbuilds ⊢
  have haugments := buildTreeT1_augments hbuilds
  have hzero : Spans (k + 1) (L + (0 : ℕ)) built.1 := by simpa using hbuilds.spans
  have hy' : y < 0 + 2 ^ (k + 1) := by rwa [Nat.zero_add]
  obtain ⟨n, o, hsplits, _, hfit⟩ := exists_splits (dvd_zero _) (Nat.zero_le x) hxy hy'
  rw [Nat.zero_add] at hfit
  refine ⟨?_, exists_narrowest haugments hbuilds.spans hsplits hfit, ?_⟩
  · exact cover_level haugments hzero (List.Subset.refl _) (dvd_zero _) (Nat.zero_le _) hxy hy'
  · intro e he hlo hhi
    exact width_ge haugments hbuilds.spans hsplits hxy he hlo hhi

theorem tightLevel_width (hxy : x < y) (hy : y < 2 ^ k) :
    2 ^ tightLevel x y ≤ 4 * (y - x + 1) := by
  rw [← Nat.zero_add (2 ^ k)] at hy
  obtain ⟨n, o, hsplits, _⟩ := exists_splits (dvd_zero _) (Nat.zero_le x) hxy hy
  have hlow := hsplits.lowPart
  have hhigh := hsplits.highPart
  obtain ⟨hstart, hx, hhalf, hstop, _⟩ := hsplits
  have hpow : 2 ^ Nat.clog 2 (max (lowPart x y) (highPart x y)) ≤
      2 * max (lowPart x y) (highPart x y) := by
    by_cases hone : max (lowPart x y) (highPart x y) = 1
    · rw [hone]
      decide
    · have hlt := Nat.pow_pred_clog_lt_self (b := 2) (by decide)
        (x := max (lowPart x y) (highPart x y)) (by omega)
      have hpos : 0 < Nat.clog 2 (max (lowPart x y) (highPart x y)) :=
        Nat.clog_pos (by decide) (by omega)
      rw [← Nat.succ_pred_eq_of_pos hpos, pow_succ']
      omega
  rw [tightLevel, pow_succ]
  omega

end RangeTightness
