import SseSeal.OramAccessController
import Mathlib.Data.Int.Interval
import Mathlib.Data.List.Nodup
import Mathlib.Data.List.Perm.Basic

/-! `Cache<ODict::Node>`: the nodes of the current session. The items are listed in the order
in which the hash table iterates over them, which every insertion may change at will. -/
namespace ClientCache

open Bytes Objects StateExcept OramAccessController

/-- The order in which the hash table lists its items after its `n`-th insertion. -/
structure HashOrder where
  arrange : ℕ → List (ℤ × Node) → List (ℤ × Node)
  perm : ∀ n l, (arrange n l).Perm l

def HashOrder.newestFirst : HashOrder := ⟨fun _ l => l, fun _ l => .refl l⟩

structure Cache where
  maxSize : ℕ
  cacheItems : List (ℤ × Node)
  lruTable : List ℤ
  order : HashOrder
  insertions : ℕ

namespace Cache

def find? (c : Cache) (id : ℤ) : Option Node :=
  (c.cacheItems.find? (·.1 = id)).map Prod.snd

/-- `get(id)`; an absent id gives a node with the id 0. -/
def get (c : Cache) (id : ℤ) : Node × Cache :=
  match c.find? id with
  | none => (Node.ofTag 0 (-1), c)
  | some node => (node, { c with lruTable := id :: c.lruTable.erase id })

/-- The eviction of the least recently used item, which must be in the cache. -/
def evict (c : Cache) : Option (Node × Cache) := do
  let back ← c.lruTable.getLast?
  let ret ← c.find? back
  return (ret, { c with
    cacheItems := c.cacheItems.filter (·.1 ≠ back)
    lruTable := c.lruTable.dropLast })

/-- The part of `put` that replaces the item of the id, or adds it. -/
def place (c : Cache) (id : ℤ) (item : Node) : Cache :=
  let lru := if id ∈ c.lruTable ∧ (c.find? id).isSome then c.lruTable.erase id else c.lruTable
  { c with
    cacheItems := c.order.arrange c.insertions ((id, item) :: c.cacheItems.filter (·.1 ≠ id))
    lruTable := id :: lru
    insertions := c.insertions + 1 }

def put (c : Cache) (id : ℤ) (item : Node) : Option (Node × Cache) :=
  let c := c.place id item
  if c.maxSize < c.cacheItems.length then c.evict else some (Node.ofTag 0 (-1), c)

/-- `find_pos_by_id`: the tag that the first parent of the id has for it. -/
def findPosById (c : Cache) (id : ℤ) : ℤ :=
  match c.cacheItems.find? fun e => e.2.leftId = id ∨ e.2.rightId = id with
  | none => -1
  | some (_, node) =>
    if node.leftId = id then node.childrenPos.1.posTag else node.childrenPos.2.posTag

/-- `pop`, which leaves the table of recent uses as it is. -/
def pop (c : Cache) : Cache := { c with cacheItems := c.cacheItems.tail }

def clear (c : Cache) : Cache := { c with cacheItems := [], lruTable := [] }

end Cache

/-- The new tag of a node, and its old tag if it had none. -/
def retag (tag : ℤ) (node : Node) : Node :=
  { node with oldTag := if node.oldTag = 0 then tag else node.oldTag, posTag := tag }

/-- The tags of the children, where a child without a new tag gets 0. -/
def retagChildren (positionTag : ℤ → ℤ) (node : Node) : Node :=
  { node with childrenPos :=
    ({ node.childrenPos.1 with posTag := positionTag node.leftId },
      { node.childrenPos.2 with posTag := positionTag node.rightId }) }

/-- The first loop of `update_pos`. A key of `position_tag` that was never assigned reads as
the 0 that `operator[]` creates. -/
def drawTags : List (ℤ × Node) → (ℤ → ℤ) → ControllerM (List (ℤ × Node) × (ℤ → ℤ))
  | [], positionTag => return ([], positionTag)
  | (id, node) :: items, positionTag => do
    let tag ← randomNewPos
    let (items, positionTag) ← drawTags items (Function.update positionTag node.id tag)
    return ((id, retag tag node) :: items, positionTag)

/-- `update_pos`: the new tag of the root, and the cache with the new tags. -/
def updatePos (c : Cache) (rootId : ℤ) : ControllerM (ℤ × Cache) := do
  let (items, positionTag) ← drawTags c.cacheItems fun _ => 0
  return (positionTag rootId,
    { c with cacheItems := items.map fun e => (e.1, retagChildren positionTag e.2) })

structure WellFormed (c : Cache) : Prop where
  maxSize_eq : c.maxSize = 2 ^ 31 - 1
  nodup : (c.cacheItems.map Prod.fst).Nodup
  named : ∀ e ∈ c.cacheItems, e.2.id = e.1
  range : ∀ e ∈ c.cacheItems, 0 < e.1 ∧ e.1 < 2 ^ 31

variable {c : Cache} {id i : ℤ} {node : Node}

theorem find?_eq_some (hd : (c.cacheItems.map Prod.fst).Nodup) :
    c.find? id = some node ↔ (id, node) ∈ c.cacheItems := by
  constructor
  · intro h
    obtain ⟨⟨j, n⟩, he, rfl⟩ := Option.map_eq_some_iff.mp h
    have hj : j = id := by simpa using List.find?_some he
    subst hj
    exact List.mem_of_find?_eq_some he
  · intro h
    cases he : c.cacheItems.find? (·.1 = id) with
    | none => simpa using List.find?_eq_none.mp he _ h
    | some e =>
      have hid : e.1 = id := by simpa using List.find?_some he
      have heq := List.inj_on_of_nodup_map hd (List.mem_of_find?_eq_some he) h hid
      rw [Cache.find?, he, heq]
      rfl

theorem find?_eq_none : c.find? id = none ↔ id ∉ c.cacheItems.map Prod.fst := by
  rw [Cache.find?, Option.map_eq_none_iff, List.find?_eq_none]
  constructor
  · rintro h hid
    obtain ⟨e, he, rfl⟩ := List.mem_map.mp hid
    simpa using h e he
  · intro h e he
    have hne : e.1 ≠ id := fun hid => h (hid ▸ List.mem_map_of_mem he)
    simpa using hne

theorem length_le {ids : List ℤ} (hd : ids.Nodup) (hr : ∀ i ∈ ids, 0 < i ∧ i < 2 ^ 31) :
    ids.length ≤ 2 ^ 31 - 1 := by
  have hsub : ids.toFinset ⊆ Finset.Ioo 0 (2 ^ 31) := by
    intro i hi
    rw [Finset.mem_Ioo]
    exact hr i (List.mem_toFinset.mp hi)
  have hcard := Finset.card_le_card hsub
  rw [List.toFinset_card_of_nodup hd, Int.card_Ioo] at hcard
  exact hcard

theorem mem_place {e : ℤ × Node} : e ∈ (c.place id node).cacheItems ↔
    e = (id, node) ∨ e ∈ c.cacheItems ∧ e.1 ≠ id := by
  simp only [Cache.place]
  rw [(c.order.perm _ _).mem_iff, List.mem_cons, List.mem_filter]
  simp

theorem place_nodup (hd : (c.cacheItems.map Prod.fst).Nodup) :
    ((c.place id node).cacheItems.map Prod.fst).Nodup := by
  rw [Cache.place, ((c.order.perm _ _).map Prod.fst).nodup_iff, List.map_cons, List.nodup_cons]
  refine ⟨?_, hd.sublist (List.filter_sublist.map _)⟩
  intro h
  obtain ⟨e, he, heq⟩ := List.mem_map.mp h
  simp [heq] at he

theorem find?_place (hd : (c.cacheItems.map Prod.fst).Nodup) :
    (c.place id node).find? i = if i = id then some node else c.find? i := by
  have hplace : ((c.place id node).cacheItems.map Prod.fst).Nodup := place_nodup hd
  by_cases hi : i = id
  · subst hi
    rw [if_pos rfl]
    exact (find?_eq_some hplace).mpr (mem_place.mpr (Or.inl rfl))
  · rw [if_neg hi]
    cases hf : c.find? i with
    | none =>
      rw [find?_eq_none] at hf ⊢
      intro h
      obtain ⟨e, he, rfl⟩ := List.mem_map.mp h
      rcases mem_place.mp he with rfl | ⟨he, _⟩
      · exact hi rfl
      · exact hf (List.mem_map_of_mem he)
    | some n =>
      rw [find?_eq_some hd] at hf
      exact (find?_eq_some hplace).mpr (mem_place.mpr (Or.inr ⟨hf, hi⟩))

section Put

variable (hw : WellFormed c) (hid : 0 < id ∧ id < 2 ^ 31) (hnode : node.id = id)
include hw hid hnode

theorem place_wellFormed : WellFormed (c.place id node) := by
  refine ⟨hw.maxSize_eq, place_nodup hw.nodup, ?_, ?_⟩
  · intro e he
    rcases mem_place.mp he with rfl | ⟨he, _⟩
    · exact hnode
    · exact hw.named e he
  · intro e he
    rcases mem_place.mp he with rfl | ⟨he, _⟩
    · exact hid
    · exact hw.range e he

omit hw hid hnode in
theorem length_place (h : c.find? id = none) :
    (c.place id node).cacheItems.length = c.cacheItems.length + 1 := by
  have hfilter : c.cacheItems.filter (·.1 ≠ id) = c.cacheItems := by
    apply List.filter_eq_self.mpr
    intro e he
    have hne : e.1 ≠ id := fun heq => find?_eq_none.mp h (heq ▸ List.mem_map_of_mem he)
    simpa using hne
  rw [Cache.place, (c.order.perm _ _).length_eq, hfilter, List.length_cons]

/-- A cache that can hold every id evicts nothing. -/
theorem put_eq : c.put id node = some (Node.ofTag 0 (-1), c.place id node) := by
  have hplace := place_wellFormed hw hid hnode
  have hlen : ((c.place id node).cacheItems.map Prod.fst).length ≤ 2 ^ 31 - 1 := by
    apply length_le hplace.nodup
    intro i hi
    obtain ⟨e, he, rfl⟩ := List.mem_map.mp hi
    exact hplace.range e he
  rw [List.length_map, ← hplace.maxSize_eq] at hlen
  exact if_neg hlen.not_gt

end Put

theorem get_hit (h : c.find? id = some node) :
    c.get id = (node, { c with lruTable := id :: c.lruTable.erase id }) := by
  simp only [Cache.get, h]

theorem get_miss (h : c.find? id = none) : c.get id = (Node.ofTag 0 (-1), c) := by
  simp only [Cache.get, h]

theorem WellFormed.lru (hw : WellFormed c) (lru : List ℤ) :
    WellFormed { c with lruTable := lru } := ⟨hw.1, hw.2, hw.3, hw.4⟩

theorem clear_wellFormed (hw : WellFormed c) : WellFormed c.clear :=
  ⟨hw.maxSize_eq, List.nodup_nil, fun _ he => absurd he List.not_mem_nil,
    fun _ he => absurd he List.not_mem_nil⟩

section MapItems

variable (f : Node → Node)

def mapItems (c : Cache) : Cache := { c with cacheItems := c.cacheItems.map fun e => (e.1, f e.2) }

theorem find?_mapItems : (mapItems f c).find? i = (c.find? i).map f := by
  simp only [Cache.find?, mapItems, List.find?_map, Option.map_map]
  rfl

theorem mapItems_wellFormed (hw : WellFormed c) (hf : ∀ n, (f n).id = n.id) :
    WellFormed (mapItems f c) := by
  refine ⟨hw.maxSize_eq, ?_, ?_, ?_⟩
  · have hfst : (mapItems f c).cacheItems.map Prod.fst = c.cacheItems.map Prod.fst := by
      simp [mapItems]
    rw [hfst]
    exact hw.nodup
  · intro e he
    rcases List.mem_map.mp he with ⟨b, hb, rfl⟩
    exact (hf b.2).trans (hw.named b hb)
  · intro e he
    rcases List.mem_map.mp he with ⟨b, hb, rfl⟩
    exact hw.range b hb

end MapItems

theorem pop_wellFormed (hw : WellFormed c) : WellFormed c.pop :=
  ⟨hw.maxSize_eq, hw.nodup.sublist ((List.tail_sublist _).map _),
    fun e he => hw.named e (List.mem_of_mem_tail he),
    fun e he => hw.range e (List.mem_of_mem_tail he)⟩

theorem find?_pop (hw : WellFormed c) {rest : List (ℤ × Node)}
    (h : c.cacheItems = (id, node) :: rest) :
    c.pop.find? i = if i = id then none else c.find? i := by
  by_cases hi : i = id
  · subst hi
    rw [if_pos rfl, find?_eq_none, Cache.pop, h, List.tail_cons]
    have hd := hw.nodup
    rw [h, List.map_cons, List.nodup_cons] at hd
    exact hd.1
  · have hskip : ((id, node) :: rest).find? (·.1 = i) = rest.find? (·.1 = i) :=
      List.find?_cons_of_neg (by simpa using Ne.symm hi)
    rw [if_neg hi, Cache.find?, Cache.find?, h, hskip, Cache.pop, h, List.tail_cons]

def tagged (positionTag : ℤ → ℤ) (node : Node) : Node :=
  retagChildren positionTag (retag (positionTag node.id) node)

variable {k : Controller} {m : ℤ → Option Str}

theorem drawTags_returns (hs : Serves k m) {items : List (ℤ × Node)} (tags : ℤ → ℤ)
    (hd : (items.map fun e => e.2.id).Nodup) :
    Returns (drawTags items tags) k fun r k' => Serves k' m ∧ k'.accesses = k.accesses ∧
      r.1 = items.map (fun e => (e.1, retag (r.2 e.2.id) e.2)) ∧
      ∀ i, i ∉ items.map (fun e => e.2.id) → r.2 i = tags i := by
  induction items generalizing k tags with
  | nil => exact returns_pure ⟨hs, rfl, rfl, fun _ _ => rfl⟩
  | cons e items ih =>
    rw [List.map_cons, List.nodup_cons] at hd
    refine (randomNewPos_returns hs).bind ?_
    intro tag k₁ hpost
    obtain ⟨hs₁, hcount₁⟩ := hpost
    refine (ih hs₁ (Function.update tags e.2.id tag) hd.2).bind ?_
    rintro ⟨rest, tags'⟩ k₂ ⟨hs₂, hcount₂, hrest, hframe⟩
    have hhead : tags' e.2.id = tag := by simpa using hframe e.2.id hd.1
    refine returns_pure ⟨hs₂, hcount₂.trans hcount₁, ?_, ?_⟩
    · simp only [List.map_cons, hhead] at hrest ⊢
      rw [hrest]
    · intro i hi
      rw [List.map_cons, List.mem_cons, not_or] at hi
      have := hframe i hi.2
      rwa [Function.update_of_ne hi.1] at this

theorem ids_eq (hw : WellFormed c) :
    (c.cacheItems.map fun e => e.2.id) = c.cacheItems.map Prod.fst :=
  List.map_congr_left hw.named

theorem updatePos_returns (hw : WellFormed c) (hs : Serves k m) (rootId : ℤ) :
    Returns (updatePos c rootId) k fun r k' => Serves k' m ∧ k'.accesses = k.accesses ∧
      ∃ tags : ℤ → ℤ, r.1 = tags rootId ∧ (∀ i, c.find? i = none → tags i = 0) ∧
        r.2 = mapItems (tagged tags) c := by
  have hd : (c.cacheItems.map fun e => e.2.id).Nodup := ids_eq hw ▸ hw.nodup
  refine (drawTags_returns hs _ hd).bind ?_
  rintro ⟨items, tags⟩ k' ⟨hs', hcount, hitems, hframe⟩
  refine returns_pure ⟨hs', hcount, tags, rfl, ?_, ?_⟩
  · intro i hi
    exact hframe i (ids_eq hw ▸ find?_eq_none.mp hi)
  · simp only at hitems
    simp [hitems, mapItems, tagged, Function.comp_def]

end ClientCache
