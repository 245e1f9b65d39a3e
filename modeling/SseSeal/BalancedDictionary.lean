import SseSeal.PositionTags

/-! The AVL invariant of the dictionary. What can be reached from the root, through the nodes
as they are stored, is a finite search tree in which the heights recorded by every node are
those of its subtrees. -/
namespace BalancedDictionary

open Bytes Objects StateExcept StringCipher AvlTree BinaryTree OramReadPathEviction OramMemory
open OdictClient ClientSession ClientTree Dictionary PositionTags

/-- The nodes that are stored under an id and, through its links, below it. -/
inductive Linked (codec : Codec Node) (c : Client) : ℤ → BinaryTree Node → Prop where
  | nil : Linked codec c 0 .nil
  | node {n : Node} {l r : BinaryTree Node} : n.id ≠ 0 → storedNode codec c n.id = some n →
      Linked codec c n.leftId l → Linked codec c n.rightId r →
      Linked codec c n.id (.node n l r)

/-- Every node records the heights of its subtrees. -/
def Measured : BinaryTree Node → Prop
  | .nil => True
  | .node n l r => n.leftHeight = l.height ∧ n.rightHeight = r.height ∧ Measured l ∧ Measured r

/-- A balanced search tree of the keys of some nodes. -/
structure AvlInvariant (nodes : List Node) (t : BinaryTree Node) : Prop where
  ids : ((entries t).map Node.id).Nodup
  keys : ((entries t).map Node.key).Pairwise (· < ·)
  inserted : ∀ key, key ∈ (entries t).map Node.key ↔ key ∈ nodes.map Node.key
  measured : Measured t
  balanced : Balanced t

variable {codec : Codec Node} {fuel : ℕ} {c : Client} {V : ℤ → Option Node} {P : ℤ → Prop}
  {t : BinaryTree Entry} {u v : BinaryTree Node} {done : List Node} {i : ℤ}

theorem Linked.unique (hu : Linked codec c i u) (hv : Linked codec c i v) : u = v := by
  induction hu generalizing v with
  | nil =>
    generalize hi : (0 : ℤ) = j at hv
    cases hv with
    | nil => rfl
    | node hn => exact absurd hi.symm hn
  | @node n l r hn hstored _ _ ihl ihr =>
    generalize hi : n.id = j at hv
    cases hv with
    | nil => exact absurd hi hn
    | node _ hstored' hl hr =>
      rw [← hi, hstored] at hstored'
      cases hstored'
      rw [ihl hl, ihr hr]

theorem entries_map {α β : Type} (f : α → β) (t : BinaryTree α) :
    entries (t.map f) = (entries t).map f := by
  induction t with
  | nil => rfl
  | node e l r hl hr =>
    rw [BinaryTree.map, entries_node, entries_node, hl, hr]
    simp

theorem height_map {α β : Type} (f : α → β) (t : BinaryTree α) :
    (t.map f).height = t.height := by
  induction t with
  | nil => rfl
  | node e l r hl hr => simp only [BinaryTree.map, BinaryTree.height, hl, hr]

theorem balanced_map {α β : Type} (f : α → β) (t : BinaryTree α) :
    Balanced (t.map f) ↔ Balanced t := by
  induction t with
  | nil => exact Iff.rfl
  | node e l r hl hr => simp only [BinaryTree.map, AvlTree.Balanced, height_map, hl, hr]

theorem linked_of_carries (h : Shows codec c V) (hmiss : ∀ i, ¬ Cached c i)
    (hc : Carries V P t) : ∃ u : BinaryTree Node, Linked codec c (rootOf t) u ∧
      u.map entryOf = t ∧ Measured u := by
  induction t with
  | nil => exact ⟨.nil, .nil, rfl, trivial⟩
  | node e l r hl hr =>
    obtain ⟨⟨n, hn, hdesc⟩, _, hcl, hcr⟩ := hc
    obtain ⟨l', hlinkl, hmapl, hmeasl⟩ := hl hcl
    obtain ⟨r', hlinkr, hmapr, hmeasr⟩ := hr hcr
    obtain ⟨m, hm, hclean⟩ := storedNode_eq h hn (hmiss _)
    have hm' := describes_clean.mp (hclean ▸ hdesc)
    have hid : m.id = e.2.id := hm'.id
    have hleft : m.leftId = rootOf l := hm'.child
    have hright : m.rightId = rootOf r := hm'.otherChild
    have hpos : m.id ≠ 0 := by
      rw [hid]
      exact (h.valid _ _ hn).pos.ne'
    have hentry : entryOf m = e := by
      rw [entryOf, hid, hm'.key, hm'.data]
    refine ⟨.node m l' r', ?_, ?_, ?_⟩
    · rw [rootOf, ← hid]
      exact .node hpos (hid ▸ hm) (hleft ▸ hlinkl) (hright ▸ hlinkr)
    · rw [BinaryTree.map, hentry, hmapl, hmapr]
    · have hlh : m.leftHeight = l.height := hm'.height
      have hrh : m.rightHeight = r.height := hm'.otherHeight
      rw [← hmapl, height_map] at hlh
      rw [← hmapr, height_map] at hrh
      exact ⟨hlh, hrh, hmeasl, hmeasr⟩

theorem balanced_treeOf (nodes : List Node) : Balanced (treeOf nodes) := by
  induction nodes using List.reverseRecOn with
  | nil => trivial
  | append_singleton nodes n ih =>
    rw [treeOf_concat]
    exact (balanced_insert ih).1

theorem mem_keys_treeOf (nodes : List Node) (key : Str) :
    key ∈ (entries (treeOf nodes)).map Prod.fst ↔ key ∈ nodes.map Node.key := by
  have hfirst := lookup_treeOf nodes key
  rw [lookup_eq (ordered_treeOf nodes), firstData] at hfirst
  have hsome := congrArg Option.isSome hfirst
  simp only [Option.isSome_map] at hsome
  rw [Bool.eq_iff_iff, List.find?_isSome, List.find?_isSome] at hsome
  simpa using hsome

theorem numNodes_treeOf_lt {nodes : List Node} (h : ¬ (nodes.map Node.key).Nodup) :
    (treeOf nodes).numNodes < nodes.length := by
  have hsub : (entries (treeOf nodes)).map Prod.fst ⊆ (nodes.map Node.key).dedup := by
    intro key hkey
    exact List.mem_dedup.mpr ((mem_keys_treeOf nodes key).mp hkey)
  have hd : ((entries (treeOf nodes)).map Prod.fst).Nodup := (ordered_treeOf nodes).imp ne_of_lt
  have hle := (hd.subperm hsub).length_le
  rw [List.length_map, length_entries] at hle
  have hdedup := (nodes.map Node.key).dedup_sublist
  have hlt : (nodes.map Node.key).dedup.length < (nodes.map Node.key).length := by
    refine lt_of_le_of_ne hdedup.length_le ?_
    intro heq
    exact h (hdedup.eq_of_length heq ▸ List.nodup_dedup _)
  rw [List.length_map] at hlt
  omega

theorem avlInvariant_of_idle (h : Idle codec done c V) (hd : (done.map Node.id).Nodup) :
    ∃ u, Linked codec c c.rootId u ∧ AvlInvariant done u ∧
      ∀ i, InDictionary codec c i ↔ i ∈ (entries u).map Node.id := by
  obtain ⟨u, hlinked, hmap, hmeasured⟩ := linked_of_carries h.shows' h.not_cached h.carries
  have hentries : entries (treeOf done) = (entries u).map entryOf := by
    rw [← hmap, entries_map]
  have hids : (entries u).map Node.id = ids (treeOf done) := by
    rw [ids, hentries, List.map_map]
    rfl
  have hkeys : (entries u).map Node.key = (entries (treeOf done)).map Prod.fst := by
    rw [hentries, List.map_map]
    rfl
  refine ⟨u, h.rootId ▸ hlinked, ⟨?_, ?_, ?_, hmeasured, ?_⟩, fun i => hids ▸ inDictionary_iff h⟩
  · rw [hids]
    exact nodup_treeOf hd
  · rw [hkeys]
    exact ordered_treeOf done
  · intro key
    rw [hkeys]
    exact mem_keys_treeOf done key
  · rw [← balanced_map entryOf, hmap]
    exact balanced_treeOf done

section Serve

variable {bucketSize blockNumber : ℕ} {storage : Storage} {randGen : RandomForOram} {o : Oram}

/-- After every run of insertions and searches the nodes that the root leads to are a balanced
search tree with the inserted keys, and no other tree. -/
theorem avl_invariant (codec : Codec Node) (insertPad findPad : ℤ → ℤ)
    (hs : ∀ k, storage.fails k = false)
    (hbuild : construct.run (blank bucketSize blockNumber storage randGen) = .ok ⟨⟩ o)
    (order : ClientCache.HashOrder) {secretKey : Str} (hkey : 16 ≤ secretKey.length)
    {requests : List Request} (hins : Insertable (inserted requests))
    (hf : (inserted requests).length < fuel) :
    ∃ answers c, (serve codec fuel insertPad findPad requests).run
        (Client.fresh secretKey order o) = .ok answers c ∧
      ∃ t, Linked codec c c.rootId t ∧ (∀ u, Linked codec c c.rootId u → u = t) ∧
        AvlInvariant (inserted requests) t ∧
        ∀ i, InDictionary codec c i ↔ i ∈ (entries t).map Node.id := by
  obtain ⟨answers, c, hrun, ⟨V, hidle⟩, _⟩ :=
    serve_returns codec insertPad findPad hs hbuild order hkey hins hf
  obtain ⟨t, hlinked, havl, hreach⟩ := avlInvariant_of_idle hidle hins.distinct
  exact ⟨answers, c, hrun, t, hlinked, fun u hu => hu.unique hlinked, havl, hreach⟩

/-- Keys in increasing order, one of them twice, so that the root is rotated. -/
theorem avl_invariant_rotated :
    ∃ (o : Oram) (answers : List (Option Node)) (c : Client),
      construct.run (blank 1 2 .new ⟨0, fun k => k, 0⟩) = .ok ⟨⟩ o ∧
      (serve ObjectArchive.nodeCodec 5 id id [.insert [.fresh 1 [97] [1], .fresh 2 [98] [2]],
          .insert [.fresh 3 [98] [3], .fresh 4 [99] [4]]]).run
        (Client.fresh sampleKey .newestFirst o) = .ok answers c ∧
      ∃ t, Linked ObjectArchive.nodeCodec c c.rootId t ∧
        AvlInvariant (inserted [.insert [.fresh 1 [97] [1], .fresh 2 [98] [2]],
          .insert [.fresh 3 [98] [3], .fresh 4 [99] [4]]]) t := by
  obtain ⟨o, hbuild⟩ := construct_small
  have hins : Insertable (inserted [.insert [.fresh 1 [97] [1], .fresh 2 [98] [2]],
      .insert [.fresh 3 [98] [3], .fresh 4 [99] [4]]]) :=
    ⟨by decide, by decide, by simp [inserted, Request.nodes, Node.fresh, Storable, blockBytes],
      by decide⟩
  have hf : (inserted [.insert [.fresh 1 [97] [1], .fresh 2 [98] [2]],
      .insert [.fresh 3 [98] [3], .fresh 4 [99] [4]]]).length < 5 := by decide
  obtain ⟨answers, c, hrun, t, hlinked, _, havl, _⟩ := avl_invariant ObjectArchive.nodeCodec
    id id (fun _ => rfl) hbuild .newestFirst sampleKey_length hins hf
  exact ⟨o, answers, c, hbuild, hrun, t, hlinked, havl⟩

end Serve

end BalancedDictionary
