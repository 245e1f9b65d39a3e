import SseSeal.SortedMap
import Mathlib.Data.Tree.Basic
import Mathlib.Order.Lattice

/-! Search trees that are rotated where one side is two levels higher than the other. An
insertion keeps the value a key already has. In order, the entries of a tree are those of
a sorted map. -/
namespace AvlTree

open SortedMap BinaryTree

inductive Side where
  | left
  | right
  deriving DecidableEq, Repr

def Side.other : Side → Side
  | .left => .right
  | .right => .left

@[simp] theorem Side.other_other (s : Side) : s.other.other = s := by cases s <;> rfl

def Side.pick {β : Type*} (s : Side) (l r : β) : β :=
  match s with
  | .left => l
  | .right => r

variable {α : Type*}

def build (s : Side) (e : α) (x y : BinaryTree α) : BinaryTree α :=
  .node e (s.pick x y) (s.pick y x)

def rotate (s : Side) : BinaryTree α → BinaryTree α
  | .nil => .nil
  | .node e l r =>
    match s.pick l r with
    | .nil => .node e l r
    | .node c cl cr => build s c (s.pick cl cr) (build s e (s.pick cr cl) (s.pick r l))

/-- Repairs a node whose subtree `x` on a side is too high. -/
def repair (s : Side) (e : α) (x y : BinaryTree α) : BinaryTree α :=
  match x with
  | .nil => build s e x y
  | .node _ cl cr =>
    if (s.pick cr cl).height ≤ (s.pick cl cr).height then rotate s (build s e x y)
    else rotate s (build s e (rotate s.other x) y)

def balance : BinaryTree α → BinaryTree α
  | .nil => .nil
  | .node e l r =>
    if r.height + 1 < l.height then repair .left e l r
    else if l.height + 1 < r.height then repair .right e r l
    else .node e l r

section Keys

variable {κ ν : Type*} [LinearOrder κ]

def insert (k : κ) (v : ν) : BinaryTree (κ × ν) → BinaryTree (κ × ν)
  | .nil => .node (k, v) .nil .nil
  | .node e l r =>
    if e.1 < k then balance (.node e l (insert k v r))
    else if k < e.1 then balance (.node e (insert k v l) r)
    else balance (.node e l r)

def visited (k : κ) : BinaryTree (κ × ν) → List (κ × ν)
  | .nil => []
  | .node e l r => e :: if e.1 = k then [] else if e.1 < k then visited k r else visited k l

def lookup (k : κ) : BinaryTree (κ × ν) → Option ν
  | .nil => none
  | .node e l r => if e.1 = k then some e.2 else if e.1 < k then lookup k r else lookup k l

end Keys

section Shapes

variable {s : Side} {e d f : α} {x y z w : BinaryTree α}

theorem build_other : build s.other e x y = build s e y x := by cases s <;> rfl

theorem node_eq_build (s : Side) (e : α) (l r : BinaryTree α) :
    .node e l r = build s e (s.pick l r) (s.pick r l) := by
  cases s <;> rfl

theorem height_build : (build s e x y).height = max x.height y.height + 1 := by
  cases s with
  | left => rfl
  | right => exact congrArg (· + 1) (Nat.max_comm _ _)

theorem rotate_build : rotate s (build s e (build s d x y) z) = build s d x (build s e y z) := by
  cases s <;> rfl

theorem rotate_inner : rotate s (build s e (rotate s.other (build s d x (build s f z w))) y) =
    build s f (build s d x z) (build s e w y) := by
  cases s <;> rfl

/-- The two sides of every node differ by one level at most. -/
def Balanced : BinaryTree α → Prop
  | .nil => True
  | .node _ l r => l.height ≤ r.height + 1 ∧ r.height ≤ l.height + 1 ∧ Balanced l ∧ Balanced r

theorem balanced_build : Balanced (build s e x y) ↔
    x.height ≤ y.height + 1 ∧ y.height ≤ x.height + 1 ∧ Balanced x ∧ Balanced y := by
  cases s with
  | left => exact Iff.rfl
  | right =>
    constructor
    · rintro ⟨hy, hx, hby, hbx⟩
      exact ⟨hx, hy, hbx, hby⟩
    · rintro ⟨hx, hy, hbx, hby⟩
      exact ⟨hy, hx, hby, hbx⟩

theorem balanced_repair (hx : Balanced x) (hy : Balanced y) (h : x.height = y.height + 2) :
    Balanced (repair s e x y) ∧ y.height + 2 ≤ (repair s e x y).height ∧
      (repair s e x y).height ≤ y.height + 3 := by
  cases x with
  | nil => cases h
  | node d l r =>
    rw [repair]
    rw [node_eq_build s d l r] at hx h ⊢
    generalize s.pick l r = a at *
    generalize s.pick r l = b at *
    obtain ⟨hab, hba, ha, hb⟩ := balanced_build.mp hx
    rw [height_build] at h
    split
    · -- the outer grandchild is the higher one, or both are equally high
      simp only [rotate_build, balanced_build, height_build]
      refine ⟨⟨by omega, by omega, ha, by omega, by omega, hb, hy⟩, by omega, by omega⟩
    · rename_i hhigh
      cases b with
      | nil => exact absurd (Nat.zero_le _) hhigh
      | node f l r =>
        rw [node_eq_build s f l r] at hb hab hba h hhigh ⊢
        generalize s.pick l r = z at *
        generalize s.pick r l = w at *
        obtain ⟨hzw, hwz, hz, hw⟩ := balanced_build.mp hb
        rw [height_build] at hab hba h hhigh
        simp only [rotate_inner, balanced_build, height_build]
        refine ⟨⟨by omega, by omega, ⟨by omega, by omega, ha, hz⟩, by omega, by omega, hw, hy⟩,
          by omega, by omega⟩

theorem balanced_balance (hx : Balanced x) (hy : Balanced y) (hhigh : x.height ≤ y.height + 2)
    (hlow : y.height ≤ x.height + 1) :
    Balanced (balance (build s e x y)) ∧
      (x.height ≤ y.height + 1 → balance (build s e x y) = build s e x y) ∧
      (x.height = y.height + 2 → x.height ≤ (balance (build s e x y)).height ∧
        (balance (build s e x y)).height ≤ x.height + 1) := by
  by_cases hin : x.height ≤ y.height + 1
  · have hsame : balance (build s e x y) = build s e x y := by
      cases s with
      | left =>
        have h₁ : ¬ y.height + 1 < x.height := by omega
        have h₂ : ¬ x.height + 1 < y.height := by omega
        simp only [build, Side.pick, balance, if_neg h₁, if_neg h₂]
      | right =>
        have h₁ : ¬ y.height + 1 < x.height := by omega
        have h₂ : ¬ x.height + 1 < y.height := by omega
        simp only [build, Side.pick, balance, if_neg h₁, if_neg h₂]
    refine ⟨?_, fun _ => hsame, fun h => absurd hin (by omega)⟩
    rw [hsame, balanced_build]
    exact ⟨hin, hlow, hx, hy⟩
  · have htwo : x.height = y.height + 2 := by omega
    have hrepair : balance (build s e x y) = repair s e x y := by
      have h₁ : y.height + 1 < x.height := by omega
      have h₂ : ¬ x.height + 1 < y.height := by omega
      cases s with
      | left => simp only [build, Side.pick, balance, if_pos h₁]
      | right => simp only [build, Side.pick, balance, if_pos h₁, if_neg h₂]
    obtain ⟨hbal, hmin, hmax⟩ := balanced_repair (s := s) (e := e) hx hy htwo
    rw [hrepair]
    exact ⟨hbal, fun h => absurd h hin, fun _ => ⟨by omega, by omega⟩⟩

/-- A node whose sides differ by two levels at most is balanced; it may lose a level. -/
theorem balanced_balance_near (hx : Balanced x) (hy : Balanced y)
    (hhigh : x.height ≤ y.height + 2) (hlow : y.height ≤ x.height + 2) :
    Balanced (balance (.node e x y)) ∧
      ((balance (.node e x y)).height = (BinaryTree.node e x y).height ∨
        (balance (.node e x y)).height + 1 = (BinaryTree.node e x y).height) := by
  have hside : ∀ (s : Side) (a b : BinaryTree α), Balanced a → Balanced b →
      a.height ≤ b.height + 2 → b.height ≤ a.height + 1 →
      Balanced (balance (build s e a b)) ∧
        ((balance (build s e a b)).height = (build s e a b).height ∨
          (balance (build s e a b)).height + 1 = (build s e a b).height) := by
    intro s a b ha hb hab hba
    obtain ⟨hbal, hsame, htwo⟩ := balanced_balance (s := s) (e := e) ha hb hab hba
    refine ⟨hbal, ?_⟩
    by_cases hin : a.height ≤ b.height + 1
    · exact Or.inl (congrArg BinaryTree.height (hsame hin))
    · have := htwo (by omega)
      rw [height_build]
      omega
  by_cases hin : y.height ≤ x.height + 1
  · exact hside .left x y hx hy hhigh hin
  · exact hside .right y x hy hx hlow (by omega)

end Shapes

/-- An insertion keeps the balance and adds one level at most. -/
theorem balanced_insert {κ ν : Type*} [LinearOrder κ] {k : κ} {v : ν} {t : BinaryTree (κ × ν)}
    (h : Balanced t) : Balanced (insert k v t) ∧ t.height ≤ (insert k v t).height ∧
      (insert k v t).height ≤ t.height + 1 := by
  -- the subtree on a side was replaced by one with a level more at most
  have hside : ∀ (s : Side) (e : κ × ν) (x x' y : BinaryTree (κ × ν)),
      Balanced (build s e x y) → Balanced x' → x.height ≤ x'.height → x'.height ≤ x.height + 1 →
      Balanced (balance (build s e x' y)) ∧
        (build s e x y).height ≤ (balance (build s e x' y)).height ∧
        (balance (build s e x' y)).height ≤ (build s e x y).height + 1 := by
    intro s e x x' y hb hx' hlow hhigh
    obtain ⟨hxy, hyx, hx, hy⟩ := balanced_build.mp hb
    obtain ⟨hbal, hsame, htwo⟩ :=
      balanced_balance (s := s) (e := e) hx' hy (by omega) (by omega)
    refine ⟨hbal, ?_⟩
    rw [height_build]
    by_cases hin : x'.height ≤ y.height + 1
    · rw [hsame hin, height_build]
      omega
    · have := htwo (by omega)
      omega
  induction t with
  | nil => exact ⟨⟨by simp, by simp, trivial, trivial⟩, by simp [insert], by simp [insert]⟩
  | node e l r hl hr =>
    obtain ⟨hlr, hrl, hbl, hbr⟩ := h
    rw [insert]
    split
    · obtain ⟨hb, hlow, hhigh⟩ := hr hbr
      exact hside .right e r _ l ⟨hlr, hrl, hbl, hbr⟩ hb hlow hhigh
    split
    · obtain ⟨hb, hlow, hhigh⟩ := hl hbl
      exact hside .left e l _ r ⟨hlr, hrl, hbl, hbr⟩ hb hlow hhigh
    · exact hside .left e l l r ⟨hlr, hrl, hbl, hbr⟩ hbl (Nat.le_refl _)
        (Nat.le_succ _)

def entries : BinaryTree α → List α
  | .nil => []
  | .node e l r => entries l ++ e :: entries r

@[simp] theorem entries_nil : entries (.nil : BinaryTree α) = [] := rfl

@[simp] theorem entries_node {e : α} {l r : BinaryTree α} :
    entries (.node e l r) = entries l ++ e :: entries r := rfl

theorem length_entries (t : BinaryTree α) : (entries t).length = t.numNodes := by
  induction t with
  | nil => rfl
  | node e l r hl hr =>
    rw [entries_node, List.length_append, List.length_cons, hl, hr, numNodes]
    omega

@[simp] theorem entries_rotate {s : Side} {t : BinaryTree α} :
    entries (rotate s t) = entries t := by
  cases t with
  | nil => rfl
  | node e l r =>
    cases s with
    | left => cases l <;> simp [rotate, build, Side.pick]
    | right => cases r <;> simp [rotate, build, Side.pick]

theorem entries_build_congr {s : Side} {e : α} {x x' y : BinaryTree α}
    (h : entries x = entries x') : entries (build s e x y) = entries (build s e x' y) := by
  cases s <;> simp [build, Side.pick, h]

theorem entries_repair {s : Side} {e : α} {x y : BinaryTree α} :
    entries (repair s e x y) = entries (build s e x y) := by
  cases x with
  | nil => rfl
  | node c cl cr =>
    simp only [repair]
    split
    · exact entries_rotate
    · exact entries_rotate.trans (entries_build_congr entries_rotate)

@[simp] theorem entries_balance {t : BinaryTree α} : entries (balance t) = entries t := by
  cases t with
  | nil => rfl
  | node e l r =>
    simp only [balance]
    split
    · exact entries_repair
    split
    · exact entries_repair
    · rfl

section Search

variable {κ ν : Type*} [LinearOrder κ] {t : BinaryTree (κ × ν)} {k a : κ} {v : ν}

def Ordered (t : BinaryTree (κ × ν)) : Prop := ((entries t).map Prod.fst).Pairwise (· < ·)

theorem ordered_node {e : κ × ν} {l r : BinaryTree (κ × ν)} :
    Ordered (.node e l r) ↔ Ordered l ∧ Ordered r ∧ (∀ f ∈ entries l, f.1 < e.1) ∧
      ∀ f ∈ entries r, e.1 < f.1 := by
  simp only [Ordered, entries_node, List.map_append, List.map_cons, List.pairwise_append,
    List.pairwise_cons, List.mem_map, List.mem_cons]
  constructor
  · rintro ⟨hl, ⟨her, hr⟩, hlt⟩
    refine ⟨hl, hr, ?_, ?_⟩
    · intro f hf
      exact hlt f.1 ⟨f, hf, rfl⟩ e.1 (Or.inl rfl)
    · intro f hf
      exact her f.1 ⟨f, hf, rfl⟩
  · rintro ⟨hl, hr, hle, her⟩
    refine ⟨hl, ⟨?_, hr⟩, ?_⟩
    · intro _ hpost
      obtain ⟨f, hf, rfl⟩ := hpost
      exact her f hf
    · rintro _ ⟨f, hf, rfl⟩ b (rfl | ⟨g, hg, rfl⟩)
      · exact hle f hf
      · exact (hle f hf).trans (her g hg)

theorem alterEntries_append {f : Option ν → ν} {l r : List (κ × ν)} (h : ∀ e ∈ l, e.1 < k) :
    alterEntries k f (l ++ r) = l ++ alterEntries k f r := by
  induction l with
  | nil => rfl
  | cons e l ih =>
    have he : e.1 < k := h e List.mem_cons_self
    rw [List.cons_append, alterEntries, if_neg he.not_gt, if_neg he.ne',
      ih fun e he => h e (List.mem_cons_of_mem _ he), List.cons_append]

theorem alterEntries_append_cons {f : Option ν → ν} {l r : List (κ × ν)} {e : κ × ν}
    (h : k < e.1) : alterEntries k f (l ++ e :: r) = alterEntries k f l ++ e :: r := by
  induction l with
  | nil => simp [alterEntries, h]
  | cons b l ih =>
    rw [List.cons_append, alterEntries, alterEntries]
    split
    · rfl
    split
    · rfl
    · rw [ih, List.cons_append]

theorem entries_insert (h : Ordered t) :
    entries (insert k v t) = alterEntries k (fun o => o.getD v) (entries t) := by
  induction t with
  | nil => rfl
  | node e l r hl hr =>
    obtain ⟨hol, hor, hle, her⟩ := ordered_node.mp h
    rw [insert]
    split
    · rename_i hlt
      have hskip : ∀ f ∈ entries l, f.1 < k := fun f hf => (hle f hf).trans hlt
      rw [entries_balance, entries_node, hr hor, entries_node, alterEntries_append hskip,
        alterEntries, if_neg hlt.not_gt, if_neg hlt.ne']
    split
    · rename_i hgt
      rw [entries_balance, entries_node, hl hol, entries_node, alterEntries_append_cons hgt]
    · rename_i hlt hgt
      have heq : k = e.1 := le_antisymm (not_lt.mp hlt) (not_lt.mp hgt)
      rw [entries_balance, entries_node, alterEntries_append (fun f hf => heq ▸ hle f hf),
        alterEntries, if_neg hgt, if_pos heq, Option.getD_some]

theorem ordered_insert (h : Ordered t) : Ordered (insert k v t) := by
  rw [Ordered, entries_insert h]
  exact alterEntries_sorted h

theorem lookup_eq (h : Ordered t) :
    lookup k t = ((entries t).find? (·.1 = k)).map Prod.snd := by
  induction t with
  | nil => rfl
  | node e l r hl hr =>
    obtain ⟨hol, hor, hle, her⟩ := ordered_node.mp h
    have hskip : e.1 ≤ k → (entries l).find? (·.1 = k) = none := fun hk =>
      List.find?_eq_none.mpr fun f hf => by simpa using ((hle f hf).trans_le hk).ne
    rw [lookup, entries_node, List.find?_append]
    split
    · rename_i heq
      rw [hskip heq.le, Option.none_or, List.find?_cons_of_pos (by simpa using heq)]
      rfl
    split
    · rename_i hne hlt
      rw [hskip hlt.le, Option.none_or, List.find?_cons_of_neg (by simpa using hne), hr hor]
    · rename_i hne hlt
      have hgt : k < e.1 := lt_of_le_of_ne (not_lt.mp hlt) (Ne.symm hne)
      have hrest : (e :: entries r).find? (·.1 = k) = none := by
        apply List.find?_eq_none.mpr
        intro f hf
        rcases List.mem_cons.mp hf with rfl | hf
        · simpa using hne
        · simpa using (hgt.trans (her f hf)).ne'
      rw [hrest, Option.or_none, hl hol]

theorem lookup_eq_some {v : ν} (h : Ordered t) : lookup k t = some v ↔ (k, v) ∈ entries t := by
  rw [lookup_eq h]
  exact Dict.find?_eq_some (m := ⟨entries t, h⟩)

theorem lookup_insert (h : Ordered t) :
    lookup a (insert k v t) = if a = k then some ((lookup k t).getD v) else lookup a t := by
  rw [lookup_eq (ordered_insert h), entries_insert h, Dict.alterEntries_find h, lookup_eq h,
    lookup_eq h]
  split
  · rfl
  · rfl

theorem mem_entries_insert {e : κ × ν} (h : e ∈ entries (insert k v t)) :
    e = (k, v) ∨ e ∈ entries t := by
  induction t with
  | nil => exact Or.inl (List.mem_singleton.mp h)
  | node b l r hl hr =>
    rw [insert] at h
    split at h
    · rw [entries_balance, entries_node, List.mem_append, List.mem_cons] at h
      rcases h with h | rfl | h
      · simp [h]
      · simp
      · rcases hr h with rfl | h
        · simp
        · simp [h]
    split at h
    · rw [entries_balance, entries_node, List.mem_append, List.mem_cons] at h
      rcases h with h | rfl | h
      · rcases hl h with rfl | h
        · simp
        · simp [h]
      · simp
      · simp [h]
    · rw [entries_balance] at h
      exact Or.inr h

theorem visited_sublist (k : κ) (t : BinaryTree (κ × ν)) : ∀ e ∈ visited k t, e ∈ entries t := by
  induction t with
  | nil => simp [visited]
  | node b l r hl hr =>
    intro e he
    rw [visited, List.mem_cons] at he
    rcases he with rfl | he
    · simp
    split at he
    · cases he
    split at he
    · simp [hr e he]
    · simp [hl e he]

end Search

end AvlTree
