import SseSeal.BalancedDictionary

/-! The removal of a key from the oblivious dictionary, as the code does it: a leaf stays where it
is, a node with one child takes over the child, and what the right subtree loses is recorded with
the height of its right side. The heads of the rotations are always those of the whole tree. -/
namespace NodeRemoval

open Bytes Objects StateExcept StringCipher AvlTree BinaryTree OdictClient ClientSession ClientTree

/-- What a buffer holds that is written under the id of a node before anything filled it: the node
that the read of this id returned, or what was made of it since. -/
inductive Unfilled where
  | returned
  | changed
  deriving DecidableEq, Repr

def Unfilled.node (u : Unfilled) (returned changed : Node) : Node :=
  match u with
  | .returned => returned
  | .changed => changed

def nullableId : Option Node → ℤ
  | none => 0
  | some n => n.id

/-- `get_height`, also of a null pointer. -/
def nullableHeight : Option Node → ℤ
  | none => 0
  | some n => getHeight n

section Removal

variable (codec : Codec Node) (unfilled : Unfilled)

def store (id : ℤ) (node : Node) : ClientM PUnit := do
  let _ ← odsAccess codec ⟨id, codec.serialize node, .write⟩

def erase (id : ℤ) (node : Node) : ClientM PUnit := do
  let _ ← odsAccess codec ⟨id, codec.serialize node, .delete⟩

def findMin : ℕ → ℤ → ClientM (Option Node)
  | 0, _ => throw .outOfFuel
  | fuel + 1, curRootId =>
    if curRootId = 0 then return none
    else do
      let root ← readFromOram codec curRootId
      if root.leftId = 0 then return some root else findMin fuel root.leftId

/-- The end of `remove_priv`, which rotates at the root of the dictionary. -/
def rebalance (root : Node) : ClientM Node := do
  if 1 < root.leftHeight - root.rightHeight then do
    let left ← readFromOram codec root.leftId
    let rootId := (← get).rootId
    if left.rightHeight ≤ left.leftHeight then rightRotate codec rootId
    else leftRightRotate codec rootId
  else if 1 < root.rightHeight - root.leftHeight then do
    let right ← readFromOram codec root.rightId
    let rootId := (← get).rootId
    if right.leftHeight ≤ right.rightHeight then leftRotate codec rootId
    else rightLeftRotate codec rootId
  else return root

def replaceByChild (s : Side) (curRootId : ℤ) (root : Node) : ClientM Node := do
  let child ← readFromOram codec (childId s root)
  let moved := { child with id := curRootId }
  store codec curRootId (unfilled.node root moved)
  erase codec (childId s root) child
  return moved

def linkLeft (curRootId : ℤ) (root : Node) (left : Option Node) : ClientM Node := do
  let root := setChild .left (nullableId left) (nullableHeight left) root
  store codec curRootId root
  return root

/-- A node whose right child is what a removal returned; its height becomes that of the right side
of the child. -/
def linkRight (curRootId : ℤ) (root : Node) (right : Option Node) : ClientM Node := do
  let right ← orThrow .undefinedBehaviour right
  let root := setChild .right right.id right.rightHeight root
  store codec curRootId root
  return root

/-- `remove_priv`. A null pointer that is dereferenced is undefined behaviour. -/
def removePriv (key : Str) : ℕ → ℤ → ClientM (Option Node)
  | 0, _ => throw .outOfFuel
  | fuel + 1, curRootId =>
    if curRootId = 0 then return none
    else do
      let root ← readFromOram codec curRootId
      let root ←
        if key < root.key then do
          let left ← removePriv key fuel root.leftId
          linkLeft codec curRootId root left
        else if root.key < key then do
          let right ← removePriv key fuel root.rightId
          linkRight codec curRootId root right
        else if root.leftId = 0 ∧ root.rightId = 0 then do
          erase codec curRootId root
          pure root
        else if root.leftId ≠ 0 ∧ root.rightId = 0 then
          replaceByChild codec unfilled .left curRootId root
        else if root.rightId ≠ 0 ∧ root.leftId = 0 then
          replaceByChild codec unfilled .right curRootId root
        else do
          let min ← findMin codec fuel root.rightId
          let min ← orThrow .undefinedBehaviour min
          let moved := { min with id := curRootId }
          let right ← removePriv moved.key fuel moved.rightId
          let right ← orThrow .undefinedBehaviour right
          let moved := setChild .right right.id right.rightHeight moved
          store codec curRootId (unfilled.node root moved)
          pure moved
      let res ← rebalance codec root
      return some res

def removeKeys (fuel : ℕ) (pad : ℤ → ℤ) (keys : List Str) : ClientM PUnit := do
  odsStart
  keys.forM fun key => do
    let _ ← removePriv codec unfilled key fuel (← get).rootId
  odsFinalize codec (pad (← get).nodeCount)

end Removal

def moveUp (e c : Entry) : Entry := (c.1, ⟨e.2.id, c.2.data⟩)

def takeOver (e : Entry) : BinaryTree Entry → BinaryTree Entry → BinaryTree Entry
  | .node d x y, .nil => .node (moveUp e d) x y
  | .nil, .node d x y => .node (moveUp e d) x y
  | l, r => .node e l r

def removed (key : Str) : BinaryTree Entry → BinaryTree Entry
  | .nil => .nil
  | .node e l r => if key < e.1 then .node e (removed key l) r else takeOver e l r

/-- The trees from which the code removes a key, or in which it finds that the key is absent. The
search for the key goes to the left only, no node on its way gets too high on the right, and where
it ends there is no node or one with one child. -/
inductive Clear (unfilled : Unfilled) (key : Str) : BinaryTree Entry → Prop where
  | nil : Clear unfilled key .nil
  | left {e : Entry} {l r : BinaryTree Entry} : key < e.1 → Clear unfilled key l →
      r.height ≤ (removed key l).height + 1 → Clear unfilled key (.node e l r)
  | found {e d : Entry} {x y : BinaryTree Entry} (s : Side) : unfilled = .changed → key = e.1 →
      Clear unfilled key (build s e (.node d x y) .nil)

variable {codec : Codec Node} {unfilled : Unfilled} {key k : Str} {c c' : Client}
  {V V' : ℤ → Option Node} {s : Side} {e d : Entry} {t x y : BinaryTree Entry} {n : Node} {i : ℤ}

theorem removed_of_lt {l r : BinaryTree Entry} (h : key < e.1) :
    removed key (.node e l r) = .node e (removed key l) r := if_pos h

theorem removed_found (h : key = e.1) :
    removed key (build s e (.node d x y) .nil) = .node (moveUp e d) x y := by
  cases s with
  | left => exact if_neg h.not_lt
  | right => exact if_neg h.not_lt

theorem rootOf_removed (h : Clear unfilled key t) : rootOf (removed key t) = rootOf t := by
  induction h with
  | nil => rfl
  | left hlt _ _ _ => rw [removed_of_lt hlt, rootOf, rootOf]
  | found s _ hkey =>
    rw [removed_found hkey, rootOf_build]
    rfl

theorem height_removed_le (h : Clear unfilled key t) : (removed key t).height ≤ t.height := by
  induction h with
  | nil => exact le_rfl
  | left hlt _ _ ih =>
    rw [removed_of_lt hlt, BinaryTree.height, BinaryTree.height]
    exact Nat.add_le_add_right (max_le_max_right _ ih) 1
  | found s _ hkey =>
    rw [removed_found hkey, height_build]
    exact (le_max_left _ _).trans (Nat.le_succ _)

theorem balanced_removed (h : Clear unfilled key t) (hb : AvlTree.Balanced t) :
    AvlTree.Balanced (removed key t) := by
  induction h with
  | nil => trivial
  | left hlt hclear hright ih =>
    obtain ⟨hlr, _, hbl, hbr⟩ := hb
    rw [removed_of_lt hlt]
    exact ⟨(height_removed_le hclear).trans hlr, hright, ih hbl, hbr⟩
  | found s _ hkey =>
    rw [removed_found hkey]
    exact (balanced_build.mp hb).2.2.1

theorem mem_ids_removed (h : Clear unfilled key t) (hi : i ∈ ids (removed key t)) : i ∈ ids t := by
  induction h with
  | nil => exact hi
  | left hlt _ _ ih =>
    rw [removed_of_lt hlt] at hi
    rcases (mem_ids_build (s := .left)).mp hi with heq | hl | hr
    · exact (mem_ids_build (s := .left)).mpr (Or.inl heq)
    · exact (mem_ids_build (s := .left)).mpr (Or.inr (Or.inl (ih hl)))
    · exact (mem_ids_build (s := .left)).mpr (Or.inr (Or.inr hr))
  | found s _ hkey =>
    rw [removed_found hkey] at hi
    rw [mem_ids_build]
    rcases (mem_ids_build (s := .left)).mp hi with heq | hx | hy
    · exact Or.inl heq
    · exact Or.inr (Or.inl ((mem_ids_build (s := .left)).mpr (Or.inr (Or.inl hx))))
    · exact Or.inr (Or.inl ((mem_ids_build (s := .left)).mpr (Or.inr (Or.inr hy))))

theorem nodup_removed (h : Clear unfilled key t) (hd : (ids t).Nodup) :
    (ids (removed key t)).Nodup := by
  induction h with
  | nil => exact hd
  | left hlt hclear _ ih =>
    have hde := (nodup_build (s := .left)).mp hd
    rw [removed_of_lt hlt]
    refine (nodup_build (s := .left)).mpr ⟨fun hi => hde.notMem (mem_ids_removed hclear hi),
      hde.notMem', ih hde.nodup, hde.nodup', fun i hi => hde.disjoint i (mem_ids_removed hclear hi)⟩
  | found s _ hkey =>
    have hde := nodup_build.mp hd
    have hdd := (nodup_build (s := .left)).mp hde.nodup
    rw [removed_found hkey]
    refine (nodup_build (s := .left)).mpr ⟨?_, ?_, hdd.nodup, hdd.nodup', hdd.disjoint⟩
    · exact fun hi => hde.notMem ((mem_ids_build (s := .left)).mpr (Or.inr (Or.inl hi)))
    · exact fun hi => hde.notMem ((mem_ids_build (s := .left)).mpr (Or.inr (Or.inr hi)))

def pairOf (e : Entry) : Str × Str := (e.1, e.2.data)

def pairs (t : BinaryTree Entry) : List (Str × Str) := (entries t).map pairOf

theorem pairs_node {l r : BinaryTree Entry} :
    pairs (.node e l r) = pairs l ++ pairOf e :: pairs r := by
  simp [pairs]

theorem filter_of_ne {l : List Entry} (h : ∀ f ∈ l, f.1 ≠ key) :
    (l.map pairOf).filter (·.1 ≠ key) = l.map pairOf := by
  apply List.filter_eq_self.mpr
  intro p hp
  obtain ⟨f, hf, rfl⟩ := List.mem_map.mp hp
  exact decide_eq_true (h f hf)

theorem pairs_removed (h : Clear unfilled key t) (ho : Ordered t) :
    pairs (removed key t) = (pairs t).filter (·.1 ≠ key) := by
  induction h with
  | nil => rfl
  | @left e l r hlt _ _ ih =>
    obtain ⟨hol, _, _, her⟩ := ordered_node.mp ho
    have hrest : (pairOf e :: pairs r).filter (·.1 ≠ key) = pairOf e :: pairs r := by
      apply filter_of_ne (l := e :: entries r)
      intro f hf
      rcases List.mem_cons.mp hf with rfl | hf
      · exact hlt.ne'
      · exact (hlt.trans (her f hf)).ne'
    rw [removed_of_lt hlt, pairs_node, pairs_node, List.filter_append, hrest, ih hol]
  | @found e d x y s _ hkey =>
    subst hkey
    have hself : [pairOf e].filter (·.1 ≠ e.1) = [] := by simp [pairOf]
    have hmoved : pairs (.node (moveUp e d) x y) = pairs (.node d x y) := by
      rw [pairs_node, pairs_node]
      rfl
    have hchild : (∀ f ∈ entries (.node d x y), f.1 ≠ e.1) →
        (pairs (.node d x y)).filter (·.1 ≠ e.1) = pairs (.node d x y) := filter_of_ne
    rw [removed_found rfl, hmoved]
    cases s with
    | left =>
      obtain ⟨_, _, hle, _⟩ := ordered_node.mp ho
      have hsplit : pairs (build .left e (.node d x y) .nil) =
          pairs (.node d x y) ++ [pairOf e] := pairs_node
      rw [hsplit, List.filter_append, hchild fun f hf => (hle f hf).ne, hself, List.append_nil]
    | right =>
      obtain ⟨_, _, _, her⟩ := ordered_node.mp ho
      have hsplit : pairs (build .right e (.node d x y) .nil) =
          [pairOf e] ++ pairs (.node d x y) := pairs_node
      rw [hsplit, List.filter_append, hself, hchild fun f hf => (her f hf).ne', List.nil_append]

theorem keys_eq (t : BinaryTree Entry) : (entries t).map Prod.fst = (pairs t).map Prod.fst := by
  rw [pairs, List.map_map]
  rfl

theorem ordered_removed (h : Clear unfilled key t) (ho : Ordered t) : Ordered (removed key t) := by
  rw [Ordered, keys_eq, pairs_removed h ho]
  rw [Ordered, keys_eq] at ho
  exact ho.sublist (List.filter_sublist.map _)

def dataOf (t : BinaryTree Entry) (key : Str) : Option Str := (lookup key t).map Item.data

theorem dataOf_eq (ho : Ordered t) :
    dataOf t key = ((pairs t).find? (·.1 = key)).map Prod.snd := by
  simp only [dataOf, lookup_eq ho, pairs, List.find?_map, Option.map_map]
  congr! 3 with e
  exact decide_eq_decide.mpr Iff.rfl

theorem dataOf_removed (h : Clear unfilled key t) (ho : Ordered t) (k : Str) :
    dataOf (removed key t) k = if k = key then none else dataOf t k := by
  rw [dataOf_eq (ordered_removed h ho), dataOf_eq ho, pairs_removed h ho, List.find?_filter]
  by_cases hk : k = key
  · subst hk
    rw [if_pos rfl, Option.map_eq_none_iff, List.find?_eq_none]
    simp
  · rw [if_neg hk]
    congr 2
    funext p
    by_cases hp : p.1 = k
    · simp [hp, hk]
    · simp [hp]

theorem store_eq (h : n.id = i) : store codec i n = writeToOram codec n := by
  subst h
  rfl

theorem erase_returns (h : Shows codec c V) (hc : Cached c n.id) :
    Returns (erase codec n.id n) c fun _ c' => Evolves codec ∅ c V c' V ∧
      ∀ i, Cached c' i ↔ Cached c i := by
  obtain ⟨r, hit⟩ := Option.ne_none_iff_exists'.mp hc
  have hv := h.valid _ _ (h.cached _ r hit)
  have hne : r.id ≠ 0 := by
    have hr : r.id = n.id := hv.id_eq
    have hpos := hv.pos
    omega
  have hdata : Returns (odsAccess codec ⟨n.id, codec.serialize n, .delete⟩) c fun _ c' =>
      c' = { c with
        cache := { c.cache with lruTable := n.id :: c.cache.lruTable.erase n.id } } := by
    apply (orThrow_returns (codec.roundTrip n)).bind
    intro _ c₁ hnode
    obtain ⟨rfl, rfl⟩ := hnode
    apply (cacheGet_hit hit).bind
    intro _ c₂ hget
    obtain ⟨rfl, rfl⟩ := hget
    rw [if_pos hne]
    exact returns_pure rfl
  apply hdata.bind
  intro _ c₁ hpost
  subst hpost
  exact returns_pure ⟨⟨h.lru _, rfl, rfl, fun _ hi => hi, fun _ _ => ⟨rfl, fun hi => hi⟩,
    fun _ _ => rfl⟩, fun _ => Iff.rfl⟩

theorem rebalance_returns (hdesc : Describes .left n e x y) (hxy : x.height ≤ y.height + 1)
    (hyx : y.height ≤ x.height + 1) : Returns (rebalance codec n) c fun r c' => r = n ∧ c' = c := by
  have hx : n.leftHeight = x.height := hdesc.height
  have hy : n.rightHeight = y.height := hdesc.otherHeight
  rw [rebalance, if_neg (by omega), if_neg (by omega)]
  exact returns_pure ⟨rfl, rfl⟩

/-- A removal from the tree `t`, of which the client then has the root in its hands. -/
def Removes (codec : Codec Node) (key : Str) (t : BinaryTree Entry) (c : Client)
    (V : ℤ → Option Node) (r : Option Node) (c' : Client) : Prop :=
  (∃ V', Evolves codec {i | i ∈ ids t} c V c' V' ∧ Carries V' (Cached c') (removed key t)) ∧
    nullableId r = rootOf (removed key t) ∧ nullableHeight r = (removed key t).height

theorem replaceByChild_returns {root : Node} (h : Shows codec c V)
    (hc : Carries V (Cached c) (build s e (.node d x y) .nil))
    (hd : (ids (build s e (.node d x y) .nil)).Nodup)
    (hroot : Describes s root e (.node d x y) .nil)
    (hcached : Cached c e.2.id) :
    Returns (replaceByChild codec .changed s e.2.id root) c fun r c' =>
      ∃ V', Evolves codec {i | i ∈ ids (build s e (.node d x y) .nil)} c V c' V' ∧
        Carries V' (Cached c') (.node (moveUp e d) x y) ∧ Describes .left r (moveUp e d) x y := by
  have hde := nodup_build.mp hd
  have hdd : Distinct d x y := (nodup_build (s := .left)).mp hde.nodup
  have hmem : ∀ i, i ∈ ids (.node d x y) ↔ i = d.2.id ∨ i ∈ ids x ∨ i ∈ ids y :=
    fun i => mem_ids_build (s := .left)
  have hex : e.2.id ∉ ids x := fun hi => hde.notMem ((hmem _).mpr (Or.inr (Or.inl hi)))
  have hey : e.2.id ∉ ids y := fun hi => hde.notMem ((hmem _).mpr (Or.inr (Or.inr hi)))
  have hne : e.2.id ≠ d.2.id := fun heq => hde.notMem ((hmem _).mpr (Or.inl heq))
  obtain ⟨⟨m, hm, _⟩, _, hcd, _⟩ := carries_build.mp hc
  have hve := h.valid _ _ hm
  have hchildId : childId s root = d.2.id := hroot.child
  rw [replaceByChild, hchildId]
  apply (readRoot_returns (s := .left) tracks_cached h hcd hdd).bind
  intro child c₁ hpost
  obtain ⟨hchild, hvchild, hev₁, _, hcached₁, hcarried₁⟩ := hpost
  obtain ⟨_, _, hcx₁, hcy₁⟩ := hcarried₁
  have hmoved : Describes .left { child with id := e.2.id } (moveUp e d) x y :=
    ⟨rfl, hchild.key, hchild.data, hchild.child, hchild.otherChild, hchild.height,
      hchild.otherHeight⟩
  have hvalid : Valid (moveUp e d).2.id { child with id := e.2.id } :=
    ⟨rfl, hve.pos, hve.lt, hvchild.key, hvchild.data⟩
  apply (writeRoot_returns tracks_cached hev₁.shows' hvalid hmoved (hev₁.keeps _ hcached) hcx₁ hcy₁
    hex hey).bind
  intro _ c₂ hpost
  obtain ⟨V₂, hev₂, _, hcarried₂⟩ := hpost
  have hid : d.2.id = child.id := hvchild.id_eq.symm
  rw [hid]
  apply (erase_returns hev₂.shows' (hid ▸ hev₂.keeps _ hcached₁)).bind
  intro _ c₃ hpost
  obtain ⟨hev₃, hsame⟩ := hpost
  refine returns_pure ⟨V₂, ?_, ?_, hmoved⟩
  · refine ((hev₁.mono ?_).trans (hev₂.mono ?_)).trans (hev₃.mono (Set.empty_subset _))
    · intro i hstep
      subst hstep
      exact mem_ids_build.mpr (Or.inr (Or.inl ((hmem _).mpr (Or.inl rfl))))
    · intro i hstep
      subst hstep
      exact mem_ids_build.mpr (Or.inl rfl)
  · exact carries_congr (fun i _ => ⟨rfl, hsame i⟩) hcarried₂

theorem linkLeft_returns {root : Node} {left : Option Node} {l r z : BinaryTree Entry}
    (h : Shows codec c V) (hdesc : Describes .left root e l r) (hv : Valid e.2.id root)
    (hcached : Cached c e.2.id) (hz : Carries V (Cached c) z) (hr : Carries V (Cached c) r)
    (hez : e.2.id ∉ ids z) (her : e.2.id ∉ ids r) (hid : nullableId left = rootOf z)
    (hheight : nullableHeight left = z.height) :
    Returns (linkLeft codec e.2.id root left) c fun n c' => Describes .left n e z r ∧
      ∃ V', Evolves codec {e.2.id} c V c' V' ∧ Carries V' (Cached c') (.node e z r) := by
  have hdesc' := hdesc.setChild (z := z)
  rw [← hid, ← hheight] at hdesc'
  rw [linkLeft, store_eq hdesc'.id]
  apply (writeRoot_returns tracks_cached h (hdesc.valid hdesc' hv) hdesc' hcached hz hr hez
    her).bind
  intro _ c' hpost
  obtain ⟨V', hev, _, hcarried⟩ := hpost
  exact returns_pure ⟨hdesc', V', hev, hcarried⟩

theorem removeFound_returns {root : Node} (hkey : key = e.1) (h : Shows codec c V)
    (hc : Carries V (Cached c) (build s e (.node d x y) .nil))
    (hd : (ids (build s e (.node d x y) .nil)).Nodup)
    (hroot : Describes s root e (.node d x y) .nil) (hcached : Cached c e.2.id)
    (hxy : x.height ≤ y.height + 1) (hyx : y.height ≤ x.height + 1) :
    Returns (do
      let root ← replaceByChild codec .changed s e.2.id root
      let res ← rebalance codec root
      return some res) c (Removes codec key (build s e (.node d x y) .nil) c V) := by
  apply (replaceByChild_returns h hc hd hroot hcached).bind
  intro moved c₂ hpost
  obtain ⟨V₂, hev, hcarried, hmoved⟩ := hpost
  apply (rebalance_returns hmoved hxy hyx).bind
  intro res c₃ hpost
  obtain ⟨rfl, rfl⟩ := hpost
  have htree : removed key (build s e (.node d x y) .nil) = build .left (moveUp e d) x y :=
    removed_found hkey
  exact returns_pure ⟨⟨V₂, hev, htree ▸ hcarried⟩, htree ▸ hmoved.isRoot.id,
    htree ▸ hmoved.isRoot.height⟩

theorem Removes.after {r : Option Node} {c₀ : Client} {V₀ : ℤ → Option Node}
    (h : Removes codec key t c V r c') (hev : Evolves codec {i | i ∈ ids t} c₀ V₀ c V) :
    Removes codec key t c₀ V₀ r c' := by
  obtain ⟨⟨V', hev', hcarried⟩, hid, hheight⟩ := h
  exact ⟨⟨V', hev.trans hev', hcarried⟩, hid, hheight⟩

theorem removePriv_returns {fuel : ℕ} (hclear : Clear unfilled key t) (h : Shows codec c V)
    (hc : Carries V (Cached c) t) (hd : (ids t).Nodup) (hb : AvlTree.Balanced t)
    (hf : t.height < fuel) :
    Returns (removePriv codec unfilled key fuel (rootOf t)) c (Removes codec key t c V) := by
  induction hclear generalizing c V fuel with
  | nil =>
    cases fuel with
    | zero => exact absurd hf (Nat.not_lt_zero _)
    | succ fuel =>
      rw [removePriv, rootOf, if_pos rfl]
      exact returns_pure ⟨⟨V, Evolves.refl h _, trivial⟩, rfl, rfl⟩
  | @left e l r hlt hclear hright ih =>
    cases fuel with
    | zero => exact absurd hf (Nat.not_lt_zero _)
    | succ fuel =>
      have hde : Distinct e l r := (nodup_build (s := .left)).mp hd
      have hroot : rootOf (.node e l r) ≠ 0 := (hc.root_pos h).ne'
      have hfl : l.height < fuel := (le_max_left _ _).trans_lt (Nat.lt_of_succ_lt_succ hf)
      obtain ⟨hlr, _, hbl, _⟩ := hb
      have hmem : ∀ i, i ∈ ids (.node e l r) ↔ i = e.2.id ∨ i ∈ ids l ∨ i ∈ ids r :=
        fun i => mem_ids_build (s := .left)
      rw [removePriv, if_neg hroot]
      apply (readRoot_returns (s := .left) tracks_cached h hc hde).bind
      intro root c₁ hpost
      obtain ⟨hdesc, hvalid, hev₁, _, hcached₁, _, _, hcl₁, hcr₁⟩ := hpost
      have hleft : root.leftId = rootOf l := hdesc.child
      rw [hdesc.key, if_pos hlt, hleft]
      apply (ih hev₁.shows' hcl₁ hde.nodup hbl hfl).bind
      intro left c₂ hpost
      obtain ⟨⟨V₂, hev₂, hcl₂⟩, hid, hheight⟩ := hpost
      have hcr₂ := evolves_carries hev₂ (t := r) (fun i hi hil => hde.disjoint i hil hi) hcr₁
      have hnot : e.2.id ∉ ids (removed key l) := fun hi => hde.notMem (mem_ids_removed hclear hi)
      apply (linkLeft_returns hev₂.shows' hdesc hvalid (hev₂.keeps _ hcached₁) hcl₂ hcr₂ hnot
        hde.notMem' hid hheight).bind
      intro root' c₃ hpost
      obtain ⟨hdesc₃, V₃, hev₃, hcarried₃⟩ := hpost
      apply (rebalance_returns hdesc₃ ((height_removed_le hclear).trans hlr) hright).bind
      intro res c₄ hpost
      obtain ⟨rfl, rfl⟩ := hpost
      have htree : removed key (.node e l r) = build .left e (removed key l) r := removed_of_lt hlt
      refine returns_pure ⟨⟨V₃, ?_, htree ▸ hcarried₃⟩, htree ▸ hdesc₃.isRoot.id,
        htree ▸ hdesc₃.isRoot.height⟩
      refine ((hev₁.mono ?_).trans (hev₂.mono ?_)).trans (hev₃.mono ?_)
      · intro i hstep
        subst hstep
        exact (hmem _).mpr (Or.inl rfl)
      · intro i hi
        exact (hmem _).mpr (Or.inr (Or.inl hi))
      · intro i hstep
        subst hstep
        exact (hmem _).mpr (Or.inl rfl)
  | @found e d x y s hu hkey =>
    cases fuel with
    | zero => exact absurd hf (Nat.not_lt_zero _)
    | succ fuel =>
      have hde := nodup_build.mp hd
      obtain ⟨⟨n, hn, _⟩, _, hcd, _⟩ := carries_build.mp hc
      have hpos := (h.valid _ n hn).pos
      have hchildPos : rootOf (.node d x y) ≠ 0 := (hcd.root_pos h).ne'
      obtain ⟨_, _, hbd, _⟩ := balanced_build.mp hb
      obtain ⟨hxy, hyx, _, _⟩ := hbd
      rw [removePriv, rootOf_build, if_neg hpos.ne']
      apply (readRoot_returns tracks_cached h hc hde).bind
      intro root c₁ hpost
      obtain ⟨hdesc, _, hev₁, _, hcached₁, hcarried₁⟩ := hpost
      have hnot : ¬ key < root.key ∧ ¬ root.key < key := by
        rw [hdesc.key, hkey]
        exact ⟨lt_irrefl _, lt_irrefl _⟩
      have hchild : childId s root ≠ 0 := hdesc.child.trans_ne hchildPos
      have hother : childId s.other root = 0 := hdesc.otherChild
      have hreplace : Returns (do
          let root ← replaceByChild codec unfilled s e.2.id root
          let res ← rebalance codec root
          return some res) c₁ (Removes codec key (build s e (.node d x y) .nil) c V) := by
        rw [hu]
        apply (removeFound_returns hkey hev₁.shows' hcarried₁ hd hdesc hcached₁ hxy hyx).imp
        intro res c₃ hremoves
        apply hremoves.after
        apply hev₁.mono
        intro i hstep
        subst hstep
        exact mem_ids_build.mpr (Or.inl rfl)
      rw [if_neg hnot.1, if_neg hnot.2]
      cases s with
      | left =>
        have hl : root.leftId ≠ 0 := hchild
        have hr : root.rightId = 0 := hother
        rw [if_neg fun hleaf => hl hleaf.1, if_pos ⟨hl, hr⟩]
        exact hreplace
      | right =>
        have hl : root.leftId = 0 := hother
        have hr : root.rightId ≠ 0 := hchild
        rw [if_neg fun hleaf => hr hleaf.2, if_neg fun hone => hone.1 hl, if_pos ⟨hr, hl⟩]
        exact hreplace

theorem removePriv_leaf {fuel : ℕ} (h : Shows codec c V)
    (hc : Carries V (Cached c) (.node e .nil .nil)) :
    Returns (removePriv codec unfilled e.1 (fuel + 1) e.2.id) c fun _ c' =>
      Evolves codec {e.2.id} c V c' V ∧ Carries V (Cached c') (.node e .nil .nil) := by
  have hde : Distinct e .nil .nil :=
    ⟨List.not_mem_nil, List.not_mem_nil, List.nodup_nil, List.nodup_nil, nofun⟩
  have hpos := hc.root_pos h
  rw [removePriv, if_neg hpos.ne']
  apply (readRoot_returns (s := .left) tracks_cached h hc hde).bind
  intro root c₁ hpost
  obtain ⟨hdesc, _, hev₁, _, hcached₁, hcarried₁⟩ := hpost
  have hid : e.2.id = root.id := hdesc.id.symm
  have hl : root.leftId = 0 := hdesc.child
  have hr : root.rightId = 0 := hdesc.otherChild
  rw [hdesc.key, if_neg (lt_irrefl _), if_neg (lt_irrefl _), if_pos ⟨hl, hr⟩, hid]
  apply (erase_returns hev₁.shows' (hid ▸ hcached₁)).bind
  intro _ c₂ hpost
  obtain ⟨hev₂, hsame⟩ := hpost
  apply (rebalance_returns hdesc (Nat.zero_le _) (Nat.zero_le _)).bind
  intro res c₃ hpost
  obtain ⟨rfl, rfl⟩ := hpost
  refine returns_pure ⟨hid ▸ hev₁.trans (hev₂.mono (Set.empty_subset _)), ?_⟩
  exact carries_congr (fun i _ => ⟨rfl, hsame i⟩) hcarried₁

/-- A null pointer is dereferenced where the search for an absent key ends on the right. -/
theorem removePriv_absent {fuel : ℕ} (h : Shows codec c V)
    (hc : Carries V (Cached c) (.node e .nil .nil)) (hkey : e.1 < key) :
    ∃ c', (removePriv codec unfilled key (fuel + 2) e.2.id).run c =
      .error .undefinedBehaviour c' := by
  have hde : Distinct e .nil .nil :=
    ⟨List.not_mem_nil, List.not_mem_nil, List.nodup_nil, List.nodup_nil, nofun⟩
  have hpos := hc.root_pos h
  obtain ⟨root, c₁, hread, hdesc, _⟩ := readRoot_returns (s := .left) tracks_cached h hc hde
  have hr : root.rightId = 0 := hdesc.otherChild
  refine ⟨c₁, ?_⟩
  rw [removePriv, if_neg hpos.ne']
  refine (run_bind_ok hread).trans ?_
  rw [hdesc.key, if_neg hkey.not_gt, if_pos hkey, hr, removePriv, if_pos rfl]
  rfl

end NodeRemoval
