import SseSeal.IndexStrings
import SseSeal.SortedBlocks
import SseSeal.SortedMap
import Mathlib.Data.Tree.Basic
import Mathlib.Tactic.Ring

/-! The tree over the values of a column: every node has the document ids of the values that it
covers, and neighbours of a level may share a parent that joins them. -/
namespace RangeTree

open Bytes IndexStrings SortedMap

abbrev Pairs := Dict ℤ (List ℕ)

def docs (m : Pairs) (key : ℤ) : List ℕ := (m.find? key).getD []

/-- `Range::Node` without its links. -/
structure RangeNode where
  kwdDocPairs : Pairs
  rangeCover : ℤ × ℤ
  id : ℕ

/-- A node with its `left` and `right`; `nil` is the null pointer. -/
abbrev T1 := BinaryTree RangeNode

def toSigned (n : ℤ) : Str := if n < 0 then 45 :: toDecimal n.natAbs else toDecimal n.natAbs

def findAll (memory : List (Str × ℕ)) (value : Str) : List ℕ :=
  (memory.filter fun item => item.1 = value).map Prod.snd

def push (m : Pairs) (key : ℤ) (ids : List ℕ) : Pairs := m.alter key fun v => v.getD [] ++ ids

def leafPairs (lhs : ℤ) (pairs : List ℕ) : Pairs :=
  pairs.foldl (fun m id => push m lhs [id]) .empty

def mergePairs (left right : Pairs) : Pairs :=
  right.entries.foldl (fun m item => push m item.1 item.2) left

def rootPairs : T1 → Pairs
  | .nil => .empty
  | .node d _ _ => d.kwdDocPairs

/-- `build_tree_t1`, with the counter of the node ids. -/
def buildTreeT1 (memory : List (Str × ℕ)) (context : Str) (lhs rhs : ℤ) (counter : ℕ) : T1 × ℕ :=
  if lhs ≥ rhs then
    let pairs := leafPairs lhs (findAll memory (context ++ toSigned lhs))
    (.node ⟨pairs, (lhs, rhs), counter⟩ .nil .nil, counter + 1)
  else
    let mid := (lhs + rhs) / 2
    let left := buildTreeT1 memory context lhs mid counter
    let right := buildTreeT1 memory context (mid + 1) rhs left.2
    let pairs := mergePairs (rootPairs left.1) (rootPairs right.1)
    (.node ⟨pairs, (lhs, rhs), right.2⟩ left.1 right.1, right.2 + 1)
termination_by (rhs - lhs).toNat

/-- The `parent` of the nodes that have one, by node id, and the counter of the node ids. -/
structure Links where
  parents : Dict ℕ RangeNode
  counter : ℕ

def link (s : Links) (left right : RangeNode) : Links :=
  let parent : RangeNode := ⟨mergePairs left.kwdDocPairs right.kwdDocPairs,
    (left.rangeCover.1, right.rangeCover.2), s.counter⟩
  ⟨(s.parents.alter left.id fun _ => parent).alter right.id fun _ => parent, s.counter + 1⟩

def linkPairs (s : Links) : List RangeNode → Links
  | left :: right :: nodes => linkPairs (link s left right) nodes
  | _ => s

/-- The body of the second loop of `add_internal_nodes_for_tree_t1`, which skips the first
node of a level. -/
def linkLevel (s : Links) (nodes : List RangeNode) : Links := linkPairs s nodes.tail

def value? : T1 → Option RangeNode
  | .nil => none
  | .node d _ _ => some d

def children : T1 → List T1
  | .nil => []
  | .node _ left right => [left, right].filter fun t => (value? t).isSome

def nextLevel (queue : List T1) : List T1 := queue.flatMap children

def weight (queue : List T1) : ℕ := (queue.map fun t => 2 * t.numNodes + 1).sum

theorem weight_append (q r : List T1) : weight (q ++ r) = weight q + weight r := by
  simp [weight]

theorem weight_children (t : T1) : weight (children t) < 2 * t.numNodes + 1 := by
  cases t with
  | nil => simp [children, weight]
  | node d left right =>
    cases left with
    | nil => cases right <;> simp [children, weight, value?]
    | node _ _ _ =>
      cases right with
      | nil => simp [children, weight, value?]
      | node _ _ _ =>
        simp [children, weight, value?]
        omega

theorem weight_nextLevel {queue : List T1} (h : queue ≠ []) :
    weight (nextLevel queue) < weight queue := by
  have hle : ∀ q : List T1, weight (nextLevel q) ≤ weight q := by
    intro q
    induction q with
    | nil => exact le_rfl
    | cons t q ih =>
      have ht := weight_children t
      have hcons : weight (t :: q) = 2 * t.numNodes + 1 + weight q := rfl
      rw [nextLevel, List.flatMap_cons, weight_append, hcons, ← nextLevel]
      omega
  obtain ⟨t, q, rfl⟩ := List.exists_cons_of_ne_nil h
  have ht := weight_children t
  have hq := hle q
  have hcons : weight (t :: q) = 2 * t.numNodes + 1 + weight q := rfl
  rw [nextLevel, List.flatMap_cons, weight_append, hcons, ← nextLevel]
  omega

def levels (queue : List T1) : List (List RangeNode) :=
  if _h : queue = [] then [] else queue.filterMap value? :: levels (nextLevel queue)
termination_by weight queue
decreasing_by exact weight_nextLevel _h

def addInternalNodesForTreeT1 (root : T1) (counter : ℕ) : Links :=
  (levels [root]).foldl linkLevel ⟨.empty, counter⟩

/-- `single_range_cover`, which has no result where it follows a null pointer. -/
def singleRangeCover (parents : Dict ℕ RangeNode) : T1 → ℤ → ℤ → Option RangeNode
  | .nil, _, _ => none
  | .node d left right, lhs, rhs =>
    let curMid := (d.rangeCover.1 + d.rangeCover.2) / 2
    if d.rangeCover.2 - 1 = d.rangeCover.1 then some d
    else if lhs > curMid then singleRangeCover parents right lhs rhs
    else if rhs ≤ curMid then singleRangeCover parents left lhs rhs
    else do
      let left ← singleRangeCover parents left lhs curMid
      let right ← singleRangeCover parents right (curMid + 1) rhs
      match parents.find? left.id, parents.find? right.id with
      | some p, some q => if p.id = q.id then return p else return d
      | _, _ => return d

/-- The subscripts that `search_range` takes from a node. -/
def docSubscripts (m : Pairs) (lowerBound upperBound : ℤ) : List ℕ :=
  m.entries.flatMap fun item =>
    if lowerBound ≤ item.1 ∧ item.1 ≤ upperBound then item.2 else []

variable {m : Pairs} {key lhs : ℤ} {ids : List ℕ}

theorem docs_push {k : ℤ} : docs (push m k ids) key =
    if key = k then docs m k ++ ids else docs m key := by
  rw [docs, push, Dict.find?_alter]
  split
  · rfl
  · rfl

theorem docs_foldl_push {l : List (ℤ × List ℕ)} (h : (l.map Prod.fst).Nodup) (m : Pairs) :
    docs (l.foldl (fun m item => push m item.1 item.2) m) key =
      docs m key ++ ((l.find? (·.1 = key)).map Prod.snd).getD [] := by
  induction l generalizing m with
  | nil => simp
  | cons item l ih =>
    rw [List.map_cons, List.nodup_cons] at h
    rw [List.foldl_cons, ih h.2, docs_push]
    by_cases hkey : item.1 = key
    · have hnone : l.find? (·.1 = key) = none := by
        apply List.find?_eq_none.mpr
        intro b hb heq
        rw [decide_eq_true_eq] at heq
        exact h.1 (hkey ▸ heq ▸ List.mem_map_of_mem hb)
      rw [hnone, List.find?_cons_of_pos (by simpa using hkey), if_pos hkey.symm, hkey]
      simp
    · rw [List.find?_cons_of_neg (by simpa using hkey), if_neg (Ne.symm hkey)]

theorem docs_mergePairs (left right : Pairs) (key : ℤ) :
    docs (mergePairs left right) key = docs left key ++ docs right key :=
  docs_foldl_push right.nodup_keys left

theorem docs_leafPairs (lhs : ℤ) (ids : List ℕ) (key : ℤ) :
    docs (leafPairs lhs ids) key = if key = lhs then ids else [] := by
  induction ids using List.reverseRecOn with
  | nil => simp [leafPairs, docs]
  | append_singleton ids i ih =>
    have hstep : leafPairs lhs (ids ++ [i]) = push (leafPairs lhs ids) lhs [i] := by
      simp [leafPairs]
    rw [hstep, docs_push]
    by_cases hkey : key = lhs
    · subst hkey
      rw [if_pos rfl] at ih
      rw [if_pos rfl, if_pos rfl, ih]
    · rw [if_neg hkey] at ih
      rw [if_neg hkey, if_neg hkey, ih]

def Covers (f : ℤ → List ℕ) (d : RangeNode) : Prop :=
  ∀ key, docs d.kwdDocPairs key =
    if d.rangeCover.1 ≤ key ∧ key ≤ d.rangeCover.2 then f key else []

def Full (f : ℤ → List ℕ) (lo hi : ℤ) (d : RangeNode) : Prop :=
  ∀ key, lo ≤ key → key ≤ hi → docs d.kwdDocPairs key = f key

variable {f : ℤ → List ℕ} {k c : ℕ} {l lo hi : ℤ} {d left right : RangeNode} {t : T1}

theorem Covers.full (h : Covers f d) (hlo : d.rangeCover.1 ≤ lo) (hhi : hi ≤ d.rangeCover.2) :
    Full f lo hi d := by
  intro key h₁ h₂
  rw [h key, if_pos ⟨hlo.trans h₁, h₂.trans hhi⟩]

theorem Covers.merge (hl : Covers f left) (hr : Covers f right)
    (h : left.rangeCover.2 < right.rangeCover.1) (key : ℤ) :
    docs (mergePairs left.kwdDocPairs right.kwdDocPairs) key =
      if left.rangeCover.1 ≤ key ∧ key ≤ left.rangeCover.2 ∨
        right.rangeCover.1 ≤ key ∧ key ≤ right.rangeCover.2 then f key else [] := by
  rw [docs_mergePairs, hl key, hr key]
  by_cases h₁ : left.rangeCover.1 ≤ key ∧ key ≤ left.rangeCover.2
  · rw [if_pos h₁, if_pos (Or.inl h₁), if_neg (by omega), List.append_nil]
  · rw [if_neg h₁, List.nil_append]
    by_cases h₂ : right.rangeCover.1 ≤ key ∧ key ≤ right.rangeCover.2
    · rw [if_pos h₂, if_pos (Or.inr h₂)]
    · rw [if_neg h₂, if_neg (by tauto)]

def nodes : T1 → List RangeNode
  | .nil => []
  | .node d left right => nodes left ++ nodes right ++ [d]

/-- A tree over the values from `l` on, with its leaves at one depth. -/
inductive Spans : ℕ → ℤ → T1 → Prop
  | leaf {l : ℤ} {d : RangeNode} (h : d.rangeCover = (l, l)) : Spans 0 l (.node d .nil .nil)
  | fork {k : ℕ} {l : ℤ} {d : RangeNode} {left right : T1}
      (h : d.rangeCover = (l, l + 2 ^ (k + 1) - 1)) (hl : Spans k l left)
      (hr : Spans k (l + 2 ^ k) right) : Spans (k + 1) l (.node d left right)

theorem Spans.root (h : Spans k l t) :
    ∃ d left right, t = .node d left right ∧ d.rangeCover = (l, l + 2 ^ k - 1) := by
  cases h with
  | leaf h => exact ⟨_, _, _, rfl, by simp [h]⟩
  | fork h _ _ => exact ⟨_, _, _, rfl, h⟩

theorem mem_nodes_root {left right : T1} : d ∈ nodes (.node d left right) := by
  simp [nodes]

theorem Spans.bounds (h : Spans k l t) (hd : d ∈ nodes t) :
    l ≤ d.rangeCover.1 ∧ d.rangeCover.2 ≤ l + 2 ^ k - 1 := by
  induction h with
  | leaf h =>
    rw [List.mem_singleton.mp hd, h]
    simp
  | @fork k l _ _ _ h _ _ ihl ihr =>
    have hpos : (0 : ℤ) < 2 ^ k := by positivity
    have hpow : (2 : ℤ) ^ (k + 1) = 2 * 2 ^ k := pow_succ' 2 k
    rcases List.mem_append.mp hd with hd | hd
    · rcases List.mem_append.mp hd with hd | hd
      · have hb := ihl hd
        omega
      · have hb := ihr hd
        omega
    · rw [List.mem_singleton.mp hd, h]
      simp

theorem Spans.cover_le (h : Spans k l t) (hd : d ∈ nodes t) :
    d.rangeCover.1 ≤ d.rangeCover.2 := by
  induction h with
  | leaf h =>
    rw [List.mem_singleton.mp hd, h]
  | @fork k l _ _ _ h _ _ ihl ihr =>
    have hpos : (0 : ℤ) < 2 ^ (k + 1) := by positivity
    rcases List.mem_append.mp hd with hd | hd
    · rcases List.mem_append.mp hd with hd | hd
      · exact ihl hd
      · exact ihr hd
    · rw [List.mem_singleton.mp hd, h]
      dsimp only
      omega

/-- What `build_tree_t1` makes: a tree over a range, with its node ids in order. -/
structure Builds (f : ℤ → List ℕ) (k : ℕ) (l : ℤ) (counter : ℕ) (built : T1 × ℕ) : Prop where
  spans : Spans k l built.1
  ids : (nodes built.1).map RangeNode.id = List.range' counter (nodes built.1).length
  counter : built.2 = counter + (nodes built.1).length
  covers : ∀ d ∈ nodes built.1, Covers f d

theorem buildTreeT1_builds (memory : List (Str × ℕ)) (context : Str) (k : ℕ) (l : ℤ) (c : ℕ) :
    Builds (fun key => findAll memory (context ++ toSigned key)) k l c
      (buildTreeT1 memory context l (l + 2 ^ k - 1) c) := by
  induction k generalizing l c with
  | zero =>
    rw [buildTreeT1, if_pos (by simp)]
    have hl : l + 2 ^ 0 - 1 = l := by simp
    rw [hl]
    refine ⟨.leaf rfl, rfl, rfl, ?_⟩
    intro d hd key
    rw [List.mem_singleton.mp hd]
    dsimp only
    rw [docs_leafPairs]
    by_cases hkey : key = l
    · rw [if_pos hkey, if_pos ⟨hkey.ge, hkey.le⟩, hkey]
    · rw [if_neg hkey, if_neg (by omega)]
  | succ k ih =>
    have hpos : (0 : ℤ) < 2 ^ k := by positivity
    have hpow : (2 : ℤ) ^ (k + 1) = 2 * 2 ^ k := pow_succ' 2 k
    have hmid : (l + (l + 2 ^ (k + 1) - 1)) / 2 = l + 2 ^ k - 1 := by omega
    have hnext : l + 2 ^ k - 1 + 1 = l + 2 ^ k := by omega
    have hend : l + 2 ^ (k + 1) - 1 = l + 2 ^ k + 2 ^ k - 1 := by omega
    rw [buildTreeT1, if_neg (by omega)]
    simp only [hmid, hnext]
    have hleft := ih l c
    generalize buildTreeT1 memory context l (l + 2 ^ k - 1) c = left at hleft ⊢
    have hright := ih (l + 2 ^ k) left.2
    rw [← hend] at hright
    generalize buildTreeT1 memory context (l + 2 ^ k) (l + 2 ^ (k + 1) - 1) left.2 = right
      at hright ⊢
    have hlen : (nodes (.node ⟨mergePairs (rootPairs left.1) (rootPairs right.1),
        (l, l + 2 ^ (k + 1) - 1), right.2⟩ left.1 right.1)).length =
          (nodes left.1).length + (nodes right.1).length + 1 := by
      simp [nodes, Nat.add_assoc]
    refine ⟨.fork rfl hleft.spans hright.spans, ?_, ?_, ?_⟩
    · rw [hlen, nodes, List.map_append, List.map_append, hleft.ids, hright.ids, hleft.counter,
        List.range'_append_1, List.range'_1_concat]
      simp [hright.counter, hleft.counter, Nat.add_assoc]
    · rw [hlen, hright.counter, hleft.counter]
      omega
    · intro d hd
      rcases List.mem_append.mp hd with hd | hd
      · rcases List.mem_append.mp hd with hd | hd
        · exact hleft.covers d hd
        · exact hright.covers d hd
      · rw [List.mem_singleton.mp hd]
        obtain ⟨a, al, ar, heql, hcl⟩ := hleft.spans.root
        obtain ⟨b, bl, br, heqr, hcr⟩ := hright.spans.root
        have hal := hleft.covers a (heql ▸ mem_nodes_root)
        have hbr := hright.covers b (heqr ▸ mem_nodes_root)
        intro key
        dsimp only
        rw [heql, heqr, rootPairs, rootPairs,
          hal.merge hbr (by rw [hcl, hcr]; dsimp only; omega) key,
          hcl, hcr]
        dsimp only
        congr 1
        apply propext
        omega

variable {N level : List RangeNode} {start : ℕ} {s : Links} {p q : RangeNode} {i j : ℕ}

/-- A parent has the ids of every value that one of its children covers. It has no parent itself,
and its id tells it from the other parents. -/
structure Linked (f : ℤ → List ℕ) (N : List RangeNode) (start : ℕ) (s : Links) : Prop where
  full : ∀ i p, s.parents.find? i = some p → ∀ d ∈ N, d.id = i →
    Full f d.rangeCover.1 d.rangeCover.2 p
  child : ∀ i p, s.parents.find? i = some p → i < start
  parent : ∀ i p, s.parents.find? i = some p → start ≤ p.id ∧ p.id < s.counter
  unique : ∀ i j p q, s.parents.find? i = some p → s.parents.find? j = some q →
    p.id = q.id → p = q
  counter : start ≤ s.counter

theorem find?_link : (link s left right).parents.find? i =
    if i = right.id ∨ i = left.id then
      some ⟨mergePairs left.kwdDocPairs right.kwdDocPairs,
        (left.rangeCover.1, right.rangeCover.2), s.counter⟩
    else s.parents.find? i := by
  rw [link, Dict.find?_alter, Dict.find?_alter]
  by_cases h₁ : i = right.id
  · rw [if_pos h₁, if_pos (Or.inl h₁)]
  · by_cases h₂ : i = left.id
    · rw [if_neg h₁, if_pos h₂, if_pos (Or.inr h₂)]
    · rw [if_neg h₁, if_neg h₂, if_neg (by tauto)]

structure Family (f : ℤ → List ℕ) (N : List RangeNode) (start : ℕ) : Prop where
  nodup : (N.map RangeNode.id).Nodup
  below : ∀ d ∈ N, d.id < start
  covers : ∀ d ∈ N, Covers f d

theorem Linked.link (hN : Family f N start) (h : Linked f N start s) (hl : left ∈ N)
    (hr : right ∈ N) (hlt : left.rangeCover.2 < right.rangeCover.1) :
    Linked f N start (link s left right) := by
  have hmerge := (hN.covers left hl).merge (hN.covers right hr) hlt
  have hcounter : (RangeTree.link s left right).counter = s.counter + 1 := rfl
  -- an entry is either the new parent or one of the old ones
  have hcases : ∀ i p, (RangeTree.link s left right).parents.find? i = some p →
      ((i = right.id ∨ i = left.id) ∧ p.id = s.counter ∧
        p = ⟨mergePairs left.kwdDocPairs right.kwdDocPairs,
          (left.rangeCover.1, right.rangeCover.2), s.counter⟩) ∨
      ¬ (i = right.id ∨ i = left.id) ∧ s.parents.find? i = some p := by
    intro i p hp
    rw [find?_link] at hp
    split at hp
    · rename_i hi
      cases hp
      exact Or.inl ⟨hi, rfl, rfl⟩
    · rename_i hi
      exact Or.inr ⟨hi, hp⟩
  constructor
  · intro i p hp d hd hid
    rcases hcases i p hp with ⟨hi, _, rfl⟩ | ⟨_, hold⟩
    · intro key h₁ h₂
      rcases hi with hi | hi
      · have heq := List.inj_on_of_nodup_map hN.nodup hd hr (hid.trans hi)
        subst heq
        rw [hmerge key, if_pos (Or.inr ⟨h₁, h₂⟩)]
      · have heq := List.inj_on_of_nodup_map hN.nodup hd hl (hid.trans hi)
        subst heq
        rw [hmerge key, if_pos (Or.inl ⟨h₁, h₂⟩)]
    · exact h.full i p hold d hd hid
  · intro i p hp
    rcases hcases i p hp with ⟨hi, _, _⟩ | ⟨_, hold⟩
    · rcases hi with rfl | rfl
      · exact hN.below right hr
      · exact hN.below left hl
    · exact h.child i p hold
  · intro i p hp
    rw [hcounter]
    rcases hcases i p hp with ⟨_, hid, _⟩ | ⟨_, hold⟩
    · have hstart := h.counter
      omega
    · have hrange := h.parent i p hold
      omega
  · intro i j p q hp hq hid
    rcases hcases i p hp with ⟨_, hidp, hpnew⟩ | ⟨_, holdp⟩
    · rcases hcases j q hq with ⟨_, _, hqnew⟩ | ⟨_, holdq⟩
      · rw [hpnew, hqnew]
      · have hrange := h.parent j q holdq
        omega
    · rcases hcases j q hq with ⟨_, hidq, _⟩ | ⟨_, holdq⟩
      · have hrange := h.parent i p holdp
        omega
      · exact h.unique i j p q holdp holdq hid
  · rw [hcounter]
    exact h.counter.trans (Nat.le_succ _)

structure Joined (N : List RangeNode) (s : Links) : Prop where
  cover : ∀ i p, s.parents.find? i = some p → ∀ d ∈ N, d.id = i →
    p.rangeCover.1 ≤ d.rangeCover.1 ∧ d.rangeCover.2 ≤ p.rangeCover.2
  within : ∀ i p, s.parents.find? i = some p → ∀ key, docs p.kwdDocPairs key ≠ [] →
    ∃ d ∈ N, d.rangeCover.1 ≤ key ∧ key ≤ d.rangeCover.2

theorem Joined.link (hN : Family f N start) (hle : ∀ d ∈ N, d.rangeCover.1 ≤ d.rangeCover.2)
    (h : Joined N s) (hl : left ∈ N) (hr : right ∈ N)
    (hlt : left.rangeCover.2 < right.rangeCover.1) : Joined N (link s left right) := by
  have hleft := hle left hl
  have hright := hle right hr
  constructor
  · intro i p hp d hd hid
    rw [find?_link] at hp
    split at hp
    · rename_i hi
      cases hp
      dsimp only
      rcases hi with hi | hi
      · have heq := List.inj_on_of_nodup_map hN.nodup hd hr (hid.trans hi)
        subst heq
        omega
      · have heq := List.inj_on_of_nodup_map hN.nodup hd hl (hid.trans hi)
        subst heq
        omega
    · exact h.cover i p hp d hd hid
  · intro i p hp key hkey
    rw [find?_link] at hp
    split at hp
    · cases hp
      dsimp only at hkey
      rw [(hN.covers left hl).merge (hN.covers right hr) hlt key] at hkey
      rcases (ite_ne_right_iff.mp hkey).1 with hin | hin
      · exact ⟨left, hl, hin⟩
      · exact ⟨right, hr, hin⟩
    · exact h.within i p hp key hkey

def Ordered (level : List RangeNode) : Prop :=
  level.Pairwise fun a b => a.rangeCover.2 < b.rangeCover.1

section Pass

variable {I : Links → Prop} (hlink : ∀ s left right, left ∈ N → right ∈ N →
  left.rangeCover.2 < right.rangeCover.1 → I s → I (link s left right))
include hlink

theorem linkPairs_keeps (h : I s) (hsub : level ⊆ N) (hord : Ordered level) :
    I (linkPairs s level) := by
  induction s, level using linkPairs.induct with
  | case1 s left right level ih =>
    obtain ⟨hleft, hrest⟩ := List.pairwise_cons.mp hord
    have hstep := hlink s left right (hsub List.mem_cons_self)
      (hsub (List.mem_cons_of_mem _ List.mem_cons_self)) (hleft right List.mem_cons_self) h
    exact ih hstep
      (fun d hd => hsub (List.mem_cons_of_mem _ (List.mem_cons_of_mem _ hd)))
      (List.pairwise_cons.mp hrest).2
  | case2 s level hshort =>
    rw [linkPairs]
    · exact h
    · exact hshort

theorem linkLevel_keeps (h : I s) (hsub : level ⊆ N) (hord : Ordered level) :
    I (linkLevel s level) :=
  linkPairs_keeps hlink h (fun _ hd => hsub (List.mem_of_mem_tail hd)) hord.tail

end Pass

structure Queued (N : List RangeNode) (queue : List T1) : Prop where
  spans : ∀ t ∈ queue, ∃ k l, Spans k l t
  sub : ∀ t ∈ queue, nodes t ⊆ N
  order : queue.Pairwise fun t u => ∀ a ∈ nodes t, ∀ b ∈ nodes u,
    a.rangeCover.2 < b.rangeCover.1

theorem children_sub {t u : T1} (h : u ∈ children t) : nodes u ⊆ nodes t := by
  cases t with
  | nil => cases h
  | node d left right =>
    intro a ha
    have hu : u ∈ [left, right] := (List.mem_filter.mp h).1
    rcases List.mem_pair.mp hu with rfl | rfl
    · simp [nodes, ha]
    · simp [nodes, ha]

theorem Spans.children (h : Spans k l t) : Queued (nodes t) (children t) := by
  refine ⟨?_, fun u hu => children_sub hu, ?_⟩
  · intro u hu
    cases h with
    | leaf _ => simp [RangeTree.children, value?] at hu
    | fork _ hl hr =>
      rcases List.mem_pair.mp (List.mem_filter.mp hu).1 with rfl | rfl
      · exact ⟨_, _, hl⟩
      · exact ⟨_, _, hr⟩
  · cases h with
    | leaf _ => simp [RangeTree.children, value?]
    | fork _ hl hr =>
      refine List.Pairwise.filter _ (List.pairwise_pair.mpr ?_)
      intro a ha b hb
      have hba := hl.bounds ha
      have hbb := hr.bounds hb
      omega

theorem Queued.nextLevel {queue : List T1} (h : Queued N queue) : Queued N (nextLevel queue) := by
  refine ⟨?_, ?_, List.pairwise_flatMap.mpr ⟨?_, ?_⟩⟩
  · intro u hu
    obtain ⟨t, ht, hu⟩ := List.mem_flatMap.mp hu
    obtain ⟨k, l, hspans⟩ := h.spans t ht
    exact hspans.children.spans u hu
  · intro u hu
    obtain ⟨t, ht, hu⟩ := List.mem_flatMap.mp hu
    exact fun a ha => h.sub t ht (children_sub hu ha)
  · intro t ht
    obtain ⟨k, l, hspans⟩ := h.spans t ht
    exact hspans.children.order
  · refine h.order.imp ?_
    intro t u htu v hv w hw a ha b hb
    exact htu a (children_sub hv ha) b (children_sub hw hb)

theorem value?_mem (h : value? t = some d) : d ∈ nodes t := by
  cases t with
  | nil => cases h
  | node _ _ _ =>
    cases h
    exact mem_nodes_root

theorem Queued.ordered_values {queue : List T1} (h : Queued N queue) :
    queue.filterMap value? ⊆ N ∧ Ordered (queue.filterMap value?) := by
  constructor
  · intro d hd
    obtain ⟨t, ht, hv⟩ := List.mem_filterMap.mp hd
    exact h.sub t ht (value?_mem hv)
  · refine List.pairwise_filterMap.mpr (h.order.imp ?_)
    intro t u htu a ha b hb
    exact htu a (value?_mem ha) b (value?_mem hb)

theorem levels_keeps {I : Links → Prop} {queue : List T1}
    (hlink : ∀ s left right, left ∈ N → right ∈ N →
      left.rangeCover.2 < right.rangeCover.1 → I s → I (link s left right))
    (h : I s) (hq : Queued N queue) : I ((levels queue).foldl linkLevel s) := by
  induction queue using levels.induct generalizing s with
  | case1 =>
    rw [levels, dif_pos rfl]
    exact h
  | case2 queue hne ih =>
    rw [levels, dif_neg hne, List.foldl_cons]
    exact ih (linkLevel_keeps hlink h hq.ordered_values.1 hq.ordered_values.2) hq.nextLevel

theorem Full.mono {lo' hi' : ℤ} (h : Full f lo hi d) (hlo : lo ≤ lo') (hhi : hi' ≤ hi) :
    Full f lo' hi' d := fun key h₁ h₂ => h key (hlo.trans h₁) (h₂.trans hhi)

theorem Full.join {mid : ℤ} (hl : Full f lo mid d) (hr : Full f (mid + 1) hi d) :
    Full f lo hi d := by
  intro key h₁ h₂
  by_cases h : key ≤ mid
  · exact hl key h₁ h
  · exact hr key (by omega) h₂

/-- A node has the ids of every value of a range, and covers the range unless it is empty. -/
structure Answers (f : ℤ → List ℕ) (lo hi : ℤ) (d : RangeNode) : Prop where
  full : Full f lo hi d
  cover : lo ≤ hi → d.rangeCover.1 ≤ lo ∧ hi ≤ d.rangeCover.2

theorem Family.answers (hN : Family f N start) (hd : d ∈ N) (hlo : d.rangeCover.1 ≤ lo)
    (hhi : hi ≤ d.rangeCover.2) : Answers f lo hi d :=
  ⟨(hN.covers d hd).full hlo hhi, fun _ => ⟨hlo, hhi⟩⟩

theorem Linked.answers (hs : Linked f N start s) (hj : Joined N s) (hd : d ∈ N)
    (hp : s.parents.find? d.id = some p) (hlo : d.rangeCover.1 ≤ lo) (hhi : hi ≤ d.rangeCover.2) :
    Answers f lo hi p := by
  obtain ⟨hlow, hhigh⟩ := hj.cover d.id p hp d hd rfl
  exact ⟨(hs.full d.id p hp d hd rfl).mono hlo hhi, fun _ => ⟨hlow.trans hlo, hhi.trans hhigh⟩⟩

theorem Answers.join {mid : ℤ} (hl : Answers f lo mid d) (hr : Answers f (mid + 1) hi d)
    (hlo : lo ≤ mid) (hhi : mid < hi) : Answers f lo hi d :=
  ⟨hl.full.join hr.full, fun _ => ⟨(hl.cover hlo).1, (hr.cover hhi).2⟩⟩

theorem Linked.no_parent (hs : Linked f N start s) (hp : s.parents.find? i = some p) :
    s.parents.find? p.id = none := by
  cases hq : s.parents.find? p.id with
  | none => rfl
  | some q => exact absurd (hs.child _ q hq) (not_lt.mpr (hs.parent i p hp).1)

theorem cover_pair {parents : Dict ℕ RangeNode} (ht : Spans 1 l t) :
    ∃ d ∈ nodes t, d.rangeCover = (l, l + 2 ^ 1 - 1) ∧
      ∀ lo hi, singleRangeCover parents t lo hi = some d := by
  obtain ⟨d, left, right, rfl, hcover⟩ := ht.root
  have hwidth : d.rangeCover.2 - 1 = d.rangeCover.1 := by
    rw [hcover, pow_one]
    dsimp only
    omega
  refine ⟨d, mem_nodes_root, hcover, ?_⟩
  intro lo hi
  rw [singleRangeCover]
  simp only [if_pos hwidth]

/-- A range is answered by a node for as much of it as the tree covers, and so it is by the
parent of that node. -/
theorem singleRangeCover_answers (hN : Family f N start) (hs : Linked f N start s)
    (hj : Joined N s) (ht : Spans (k + 1) l t) (hsub : nodes t ⊆ N) (lo hi : ℤ) :
    ∃ d, singleRangeCover s.parents t lo hi = some d ∧
      (d ∈ N ∨ ∃ i, s.parents.find? i = some d) ∧
      Answers f (max l lo) (min (l + 2 ^ (k + 1) - 1) hi) d ∧
      ∀ p, s.parents.find? d.id = some p →
        Answers f (max l lo) (min (l + 2 ^ (k + 1) - 1) hi) p := by
  induction k generalizing l t lo hi with
  | zero =>
    rw [Nat.zero_add] at ht ⊢
    obtain ⟨d, hmem, hcover, hfind⟩ := cover_pair ht
    have hd := hsub hmem
    have hlo : d.rangeCover.1 ≤ max l lo := by
      rw [hcover]
      exact le_max_left l lo
    have hhi : min (l + 2 ^ 1 - 1) hi ≤ d.rangeCover.2 := by
      rw [hcover]
      exact min_le_left _ hi
    exact ⟨d, hfind lo hi, Or.inl hd, hN.answers hd hlo hhi,
      fun p hp => hs.answers hj hd hp hlo hhi⟩
  | succ k ih =>
    cases ht with
    | @fork _ _ d left right hcover hl hr =>
    have hpos : (0 : ℤ) < 2 ^ k := by positivity
    have hpow₁ : (2 : ℤ) ^ (k + 1) = 2 * 2 ^ k := pow_succ' 2 k
    have hpow₂ : (2 : ℤ) ^ (k + 1 + 1) = 2 * 2 ^ (k + 1) := pow_succ' 2 (k + 1)
    have hd : d ∈ N := hsub mem_nodes_root
    have hsubl : nodes left ⊆ N := fun a ha => hsub (by simp [nodes, ha])
    have hsubr : nodes right ⊆ N := fun a ha => hsub (by simp [nodes, ha])
    have hmid : (d.rangeCover.1 + d.rangeCover.2) / 2 = l + 2 ^ (k + 1) - 1 := by
      rw [hcover]
      dsimp only
      omega
    have hwidth : ¬ d.rangeCover.2 - 1 = d.rangeCover.1 := by
      rw [hcover]
      dsimp only
      omega
    have hlo : d.rangeCover.1 ≤ max l lo := by
      rw [hcover]
      exact le_max_left l lo
    have hhi : min (l + 2 ^ (k + 1 + 1) - 1) hi ≤ d.rangeCover.2 := by
      rw [hcover]
      exact min_le_left _ hi
    have hself := hN.answers hd hlo hhi
    have hparent : ∀ p, s.parents.find? d.id = some p →
        Answers f (max l lo) (min (l + 2 ^ (k + 1 + 1) - 1) hi) p :=
      fun p hp => hs.answers hj hd hp hlo hhi
    rw [singleRangeCover]
    simp only [if_neg hwidth, hmid]
    by_cases hright : lo > l + 2 ^ (k + 1) - 1
    · -- the tree on the left covers no value of the range
      rw [if_pos hright]
      have hstart : max l lo = max (l + 2 ^ (k + 1)) lo := by omega
      have hend : l + 2 ^ (k + 1 + 1) - 1 = l + 2 ^ (k + 1) + 2 ^ (k + 1) - 1 := by omega
      rw [hstart, hend]
      exact ih hr hsubr lo hi
    · rw [if_neg hright]
      by_cases hleft : hi ≤ l + 2 ^ (k + 1) - 1
      · rw [if_pos hleft]
        have hend : min (l + 2 ^ (k + 1 + 1) - 1) hi = min (l + 2 ^ (k + 1) - 1) hi := by omega
        rw [hend]
        exact ih hl hsubl lo hi
      · rw [if_neg hleft]
        obtain ⟨a, hfinda, _, _, hparenta⟩ := ih hl hsubl lo (l + 2 ^ (k + 1) - 1)
        obtain ⟨b, hfindb, _, _, hparentb⟩ := ih hr hsubr (l + 2 ^ (k + 1) - 1 + 1) hi
        rw [hfinda, hfindb]
        simp only [Option.bind_eq_bind, Option.bind_some]
        cases hp : s.parents.find? a.id with
        | none => exact ⟨d, rfl, Or.inl hd, hself, hparent⟩
        | some p =>
          cases hq : s.parents.find? b.id with
          | none => exact ⟨d, rfl, Or.inl hd, hself, hparent⟩
          | some q =>
            by_cases hid : p.id = q.id
            · simp only [if_pos hid]
              have heq := hs.unique _ _ p q hp hq hid
              have hfirst := hparenta p hp
              have hsecond := hparentb q hq
              have hstart : max (l + 2 ^ (k + 1)) (l + 2 ^ (k + 1) - 1 + 1) =
                  l + 2 ^ (k + 1) - 1 + 1 := by omega
              have hend : l + 2 ^ (k + 1) + 2 ^ (k + 1) - 1 = l + 2 ^ (k + 1 + 1) - 1 := by omega
              rw [min_self] at hfirst
              rw [← heq, hstart, hend] at hsecond
              refine ⟨p, rfl, Or.inr ⟨_, hp⟩, hfirst.join hsecond (by omega) (by omega), ?_⟩
              intro r hr
              rw [hs.no_parent hp] at hr
              cases hr
            · simp only [if_neg hid]
              exact ⟨d, rfl, Or.inl hd, hself, hparent⟩

theorem buildTreeT1_links {built : T1 × ℕ} (hbuilds : Builds f k l c built) :
    Family f (nodes built.1) built.2 ∧
      Linked f (nodes built.1) built.2 (addInternalNodesForTreeT1 built.1 built.2) ∧
      Joined (nodes built.1) (addInternalNodesForTreeT1 built.1 built.2) := by
  have hfamily : Family f (nodes built.1) built.2 := by
    refine ⟨?_, ?_, hbuilds.covers⟩
    · rw [hbuilds.ids]
      exact List.nodup_range'
    · intro d hd
      have hid := List.mem_map_of_mem (f := RangeNode.id) hd
      rw [hbuilds.ids, List.mem_range'_1] at hid
      rw [hbuilds.counter]
      exact hid.2
  have hqueue : Queued (nodes built.1) [built.1] := by
    refine ⟨?_, ?_, List.pairwise_singleton _ _⟩
    · intro t ht
      rw [List.mem_singleton.mp ht]
      exact ⟨_, _, hbuilds.spans⟩
    · intro t ht
      rw [List.mem_singleton.mp ht]
      exact List.Subset.refl _
  have hlinked : Linked f (nodes built.1) built.2 ⟨.empty, built.2⟩ := by
    constructor <;> simp
  have hjoined : Joined (nodes built.1) ⟨.empty, built.2⟩ := by
    constructor <;> simp
  exact ⟨hfamily,
    levels_keeps (fun s left right hl hr hlt h => h.link hfamily hl hr hlt) hlinked hqueue,
    levels_keeps (fun s left right hl hr hlt h =>
      h.link hfamily (fun d hd => hbuilds.spans.cover_le hd) hl hr hlt) hjoined hqueue⟩

/-- The tree over a column, with its parents: a range is answered with all its values. -/
theorem buildTreeT1_cover (memory : List (Str × ℕ)) (context : Str) (k : ℕ) (l : ℤ) (c : ℕ)
    (hlo : l ≤ lo) (hhi : hi ≤ l + 2 ^ (k + 1) - 1) :
    ∃ d, singleRangeCover
        (addInternalNodesForTreeT1 (buildTreeT1 memory context l (l + 2 ^ (k + 1) - 1) c).1
          (buildTreeT1 memory context l (l + 2 ^ (k + 1) - 1) c).2).parents
        (buildTreeT1 memory context l (l + 2 ^ (k + 1) - 1) c).1 lo hi = some d ∧
      Full (fun key => findAll memory (context ++ toSigned key)) lo hi d := by
  have hbuilds := buildTreeT1_builds memory context (k + 1) l c
  generalize buildTreeT1 memory context l (l + 2 ^ (k + 1) - 1) c = built at hbuilds ⊢
  obtain ⟨hfamily, hlinked, hjoined⟩ := buildTreeT1_links hbuilds
  obtain ⟨d, hcover, _, hanswers, _⟩ := singleRangeCover_answers hfamily hlinked hjoined
    hbuilds.spans (List.Subset.refl _) lo hi
  rw [max_eq_right hlo, min_eq_right hhi] at hanswers
  exact ⟨d, hcover, hanswers.full⟩

theorem docSubscripts_eq_flatMap (m : Pairs) (lo hi : ℤ) : docSubscripts m lo hi =
    ((m.entries.map Prod.fst).filter fun key => lo ≤ key ∧ key ≤ hi).flatMap (docs m) := by
  have hstored : ∀ item ∈ m.entries, docs m item.1 = item.2 := by
    intro item hitem
    rw [docs, Dict.find?_eq_some.mpr hitem, Option.getD_some]
  rw [docSubscripts]
  generalize docs m = stored at hstored
  generalize m.entries = entries at hstored
  induction entries with
  | nil => rfl
  | cons item entries ih =>
    rw [List.flatMap_cons, List.map_cons, ih fun b hb => hstored b (List.mem_cons_of_mem _ hb)]
    by_cases hrange : lo ≤ item.1 ∧ item.1 ≤ hi
    · rw [List.filter_cons_of_pos (by simpa using hrange), List.flatMap_cons, if_pos hrange,
        hstored item List.mem_cons_self]
    · rw [List.filter_cons_of_neg (by simpa using hrange), if_neg hrange, List.nil_append]

theorem docSubscripts_perm {α : Type} {rows : List α} {val : α → ℤ} {rowId : α → ℕ}
    (h : Full (fun key => (rows.filter fun a => val a = key).map rowId) lo hi d) :
    (docSubscripts d.kwdDocPairs lo hi).Perm
      ((rows.filter fun a => lo ≤ val a ∧ val a ≤ hi).map rowId) := by
  let values := (d.kwdDocPairs.entries.map Prod.fst).filter fun key => lo ≤ key ∧ key ≤ hi
  have hnodup : values.Nodup := d.kwdDocPairs.nodup_keys.filter _
  have hdocs : docSubscripts d.kwdDocPairs lo hi =
      values.flatMap fun key => (rows.filter fun a => val a = key).map rowId := by
    rw [docSubscripts_eq_flatMap]
    apply List.flatMap_congr
    intro key hkey
    obtain ⟨hlo, hhi⟩ := of_decide_eq_true (List.mem_filter.mp hkey).2
    exact h key hlo hhi
  have hin : (rows.filter fun a => val a ∈ values) =
      rows.filter fun a => lo ≤ val a ∧ val a ≤ hi := by
    apply List.filter_congr
    intro a ha
    rw [decide_eq_decide, List.mem_filter, decide_eq_true_eq]
    constructor
    · exact And.right
    · intro hrange
      refine ⟨?_, hrange⟩
      by_contra hnone
      have hfull := h (val a) hrange.1 hrange.2
      rw [docs, Dict.find?_eq_none.mpr hnone] at hfull
      have hrow : rowId a ∈ (rows.filter fun b => val b = val a).map rowId :=
        List.mem_map_of_mem (List.mem_filter.mpr ⟨ha, by simp⟩)
      dsimp only at hfull
      rw [← hfull] at hrow
      cases hrow
  rw [hdocs, ← hin, ← List.map_flatMap]
  exact (SortedBlocks.flatMap_filter_perm val hnodup rows).map rowId

end RangeTree
