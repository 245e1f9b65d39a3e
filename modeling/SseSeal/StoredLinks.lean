import SseSeal.LinkedSearch
import SseSeal.StoppedSession
import SseSeal.TableReloading

/-! The links that the nodes of the client store, and searches of the client along them. -/
namespace StoredLinks

open Bytes Objects StateExcept AvlTree BinaryTree OramAccessController ClientCache OdictClient
open ClientSession ClientTree Dictionary TableReloading StoppedSession LinkedSearch

abbrev NodeLink := Link ℤ Str Item

def linkOf (n : Node) : NodeLink :=
  ⟨entryOf n, n.leftId, n.rightId, n.leftHeight, n.rightHeight⟩

def linksOf : BinaryTree Entry → ℤ → Option NodeLink
  | .nil, _ => none
  | .node e l r, i =>
    if e.2.id = i then some ⟨e, rootOf l, rootOf r, l.height, r.height⟩
    else (linksOf l i).or (linksOf r i)

variable {codec : Codec Node} {c c' : Client} {V V' : ℤ → Option Node} {P : ℤ → Prop}
  {t l r : BinaryTree Entry} {e : Entry} {i : ℤ} {n : Node} {b : NodeLink} {key : Str}
  {links : ℤ → Option NodeLink} {done : List Node} {fuel : ℕ}

theorem mem_ids_node : i ∈ ids (.node e l r) ↔ i = e.2.id ∨ i ∈ ids l ∨ i ∈ ids r :=
  mem_ids_build (s := .left)

theorem distinct_node (hd : (ids (.node e l r)).Nodup) : Distinct e l r :=
  nodup_build (s := .left).mp hd

theorem linksOf_none (h : i ∉ ids t) : linksOf t i = none := by
  induction t with
  | nil => rfl
  | node e l r hl hr =>
    rw [mem_ids_node, not_or, not_or] at h
    obtain ⟨he, hil, hir⟩ := h
    rw [linksOf, if_neg (Ne.symm he), hl hil, hr hir]
    rfl

theorem rootOf_cases (t : BinaryTree Entry) : rootOf t = 0 ∨ rootOf t ∈ ids t := by
  by_cases hroot : rootOf t = 0
  · exact Or.inl hroot
  · exact Or.inr (PositionTags.rootOf_mem hroot)

theorem linksOf_some (h : linksOf t i = some b) :
    i ∈ ids t ∧ b.entry ∈ entries t ∧ ∀ key, b.next key = 0 ∨ b.next key ∈ ids t := by
  induction t with
  | nil => cases h
  | node e l r hl hr =>
    rw [linksOf] at h
    split at h
    · rename_i heq
      cases h
      refine ⟨mem_ids_node.mpr (Or.inl heq.symm), by simp, ?_⟩
      intro key
      rw [Link.next]
      split
      · exact (rootOf_cases r).imp_right fun hmem => mem_ids_node.mpr (Or.inr (Or.inr hmem))
      · exact (rootOf_cases l).imp_right fun hmem => mem_ids_node.mpr (Or.inr (Or.inl hmem))
    · rcases Option.or_eq_some_iff.mp h with hin | ⟨_, hin⟩
      · obtain ⟨hi, he, hnext⟩ := hl hin
        refine ⟨mem_ids_node.mpr (Or.inr (Or.inl hi)), by simp [he], ?_⟩
        exact fun key => (hnext key).imp_right fun h => mem_ids_node.mpr (Or.inr (Or.inl h))
      · obtain ⟨hi, he, hnext⟩ := hr hin
        refine ⟨mem_ids_node.mpr (Or.inr (Or.inr hi)), by simp [he], ?_⟩
        exact fun key => (hnext key).imp_right fun h => mem_ids_node.mpr (Or.inr (Or.inr h))

theorem linksOf_root : linksOf (.node e l r) e.2.id =
    some ⟨e, rootOf l, rootOf r, l.height, r.height⟩ := if_pos rfl

theorem linksOf_left (hd : (ids (.node e l r)).Nodup) (hi : i ∈ ids l) :
    linksOf (.node e l r) i = linksOf l i := by
  have hde := distinct_node hd
  have hne : e.2.id ≠ i := fun heq => hde.notMem (heq ▸ hi)
  rw [linksOf, if_neg hne, linksOf_none (hde.disjoint i hi), Option.or_none]

theorem linksOf_right (hd : (ids (.node e l r)).Nodup) (hi : i ∈ ids r) :
    linksOf (.node e l r) i = linksOf r i := by
  have hde := distinct_node hd
  have hne : e.2.id ≠ i := fun heq => hde.notMem' (heq ▸ hi)
  rw [linksOf, if_neg hne, linksOf_none fun hl => hde.disjoint i hl hi, Option.none_or]

def Stores (V : ℤ → Option Node) (links : ℤ → Option NodeLink) : Prop :=
  ∀ i, (V i).map linkOf = links i

theorem linkOf_eq (h : Describes .left n e l r) :
    linkOf n = ⟨e, rootOf l, rootOf r, l.height, r.height⟩ := by
  obtain ⟨hid, hkey, hdata, hleft, hright, hheight, hheight'⟩ := h
  have hentry : entryOf n = e := by
    rw [entryOf, hid, hkey, hdata]
  simp only [childId, childHeight, Side.pick, Side.other] at hleft hright hheight hheight'
  rw [linkOf, hentry, hleft, hright, hheight, hheight']

theorem describes_of_linkOf (h : linkOf n = ⟨e, rootOf l, rootOf r, l.height, r.height⟩) :
    Describes .left n e l r := by
  simp only [linkOf, Link.mk.injEq] at h
  obtain ⟨rfl, hleft, hright, hheight, hheight'⟩ := h
  exact ⟨rfl, rfl, rfl, hleft, hright, hheight, hheight'⟩

theorem carries_links (h : Carries V P t) (hd : (ids t).Nodup) (hi : i ∈ ids t) :
    (V i).map linkOf = linksOf t i := by
  induction t with
  | nil => cases hi
  | node e l r hl hr =>
    have hde := distinct_node hd
    obtain ⟨⟨n, hn, hdesc⟩, _, hcl, hcr⟩ := h
    rcases mem_ids_node.mp hi with rfl | hil | hir
    · rw [linksOf_root, hn, Option.map_some, linkOf_eq hdesc]
    · rw [linksOf_left hd hil]
      exact hl hcl hde.nodup hil
    · rw [linksOf_right hd hir]
      exact hr hcr hde.nodup' hir

theorem carries_of_links (hd : (ids t).Nodup) (h : ∀ i ∈ ids t, (V i).map linkOf = linksOf t i)
    (hP : ∀ i, ¬ P i) : Carries V P t := by
  induction t with
  | nil => trivial
  | node e l r hl hr =>
    have hde := distinct_node hd
    have hroot := h e.2.id (mem_ids_node.mpr (Or.inl rfl))
    rw [linksOf_root] at hroot
    obtain ⟨n, hn, hlink⟩ := Option.map_eq_some_iff.mp hroot
    refine ⟨⟨n, hn, describes_of_linkOf hlink⟩, fun i _ hi => absurd hi (hP i), ?_, ?_⟩
    · apply hl hde.nodup
      intro i hi
      rw [← linksOf_left hd hi]
      exact h i (mem_ids_node.mpr (Or.inr (Or.inl hi)))
    · apply hr hde.nodup'
      intro i hi
      rw [← linksOf_right hd hi]
      exact h i (mem_ids_node.mpr (Or.inr (Or.inr hi)))

theorem stores_tree (h : Carries V P t) (hd : (ids t).Nodup)
    (hsupport : ∀ i, V i ≠ none → i ∈ ids t) : Stores V (linksOf t) := by
  intro i
  by_cases hi : i ∈ ids t
  · exact carries_links h hd hi
  · have hnone : V i = none := not_not.mp fun hne => hi (hsupport i hne)
    rw [hnone, linksOf_none hi]
    rfl

theorem Stores.settled (h : Stores V links) (tags : ℤ → ℤ) (c : Client) :
    Stores (settled tags c V) links := by
  intro i
  rw [← h i, ClientSession.settled]
  split
  · rw [Option.map_map]
    rfl
  · rfl

theorem Stores.updated {new : ℤ → Option NodeLink} (h : Stores V links) (h' : Stores V' new)
    (written : List ℤ) : Stores (updated written V V') (updated written links new) := by
  intro i
  rw [StoppedSession.updated, StoppedSession.updated]
  split
  · exact h' i
  · exact h i

theorem next_linkOf : (linkOf n).next key = if n.key < key then n.rightId else n.leftId := by
  by_cases hlt : n.key < key
  · rw [if_pos hlt]
    exact if_pos hlt
  · rw [if_neg hlt]
    exact if_neg hlt

theorem readFromOram_linked (h : Shows codec c V) (hs : Stores V links) (hb : links i = some b) :
    i ≠ 0 ∧ Returns (readFromOram codec i) c fun root c' =>
      linkOf root = b ∧ Shows codec c' V ∧ c'.rootId = c.rootId := by
  obtain ⟨n, hn, rfl⟩ := Option.map_eq_some_iff.mp ((hs i).trans hb)
  refine ⟨(h.valid i n hn).pos.ne', ?_⟩
  apply (readFromOram_returns h hn).imp
  intro root c₁ hpost
  obtain ⟨rfl, hev, _⟩ := hpost
  exact ⟨rfl, hev.shows', hev.rootId⟩

theorem findPriv_walks {path : List ℤ} (h : Shows codec c V) (hs : Stores V links)
    (hw : Walk links key i path e) (hf : path.length < fuel) :
    Returns (findPriv codec key fuel i) c fun r c' =>
      (∃ n, r = some n ∧ entryOf n = e) ∧ Shows codec c' V ∧ c'.rootId = c.rootId := by
  induction hw generalizing c fuel with
  | @found i b hb hkey =>
    obtain ⟨fuel, rfl⟩ := Nat.exists_eq_succ_of_ne_zero (Nat.ne_of_gt (Nat.zero_lt_of_lt hf))
    obtain ⟨hi, hread⟩ := readFromOram_linked h hs hb
    rw [findPriv, if_neg hi]
    apply hread.bind
    intro root c₁ hpost
    obtain ⟨rfl, hshows, hroot⟩ := hpost
    rw [if_pos (show root.key = key from hkey)]
    exact returns_pure ⟨⟨root, rfl, rfl⟩, hshows, hroot⟩
  | @step i b path e hb hne _ ih =>
    obtain ⟨fuel, rfl⟩ := Nat.exists_eq_succ_of_ne_zero (Nat.ne_of_gt (Nat.zero_lt_of_lt hf))
    obtain ⟨hi, hread⟩ := readFromOram_linked h hs hb
    rw [findPriv, if_neg hi]
    apply hread.bind
    intro root c₁ hpost
    obtain ⟨rfl, hshows, hroot⟩ := hpost
    rw [if_neg (show root.key ≠ key from hne)]
    have hrest := ih hshows (Nat.lt_of_succ_lt_succ hf)
    rw [hroot, next_linkOf] at hrest
    split
    · rename_i hlt
      rwa [if_pos hlt] at hrest
    · rename_i hlt
      rwa [if_neg hlt] at hrest

def InRange (i : ℤ) : Prop := i = 0 ∨ 0 < i ∧ i < 2 ^ 31

theorem findPriv_meets (h : Shows codec c V) (hs : Stores V links)
    (hempty : codec.deserialize [] = none)
    (hrange : ∀ i b, links i = some b → InRange (b.next key)) (hi : InRange i) :
    Ends (findPriv codec key fuel i) c (fun r _ => r ≠ none → Meets links key i)
      fun _ _ => True := by
  induction fuel generalizing c i with
  | zero => exact ends_error rfl trivial
  | succ fuel ih =>
    rw [findPriv]
    rcases hi with rfl | hi
    · rw [if_pos rfl]
      exact ends_ok rfl fun hne => absurd rfl hne
    rw [if_neg hi.1.ne']
    cases hb : links i with
    | none =>
      have hn : V i = none := Option.map_eq_none_iff.mp ((hs i).trans hb)
      have hmiss : c.cache.find? i = none := by
        cases hfind : c.cache.find? i with
        | none => rfl
        | some n =>
          rw [h.cached i n hfind] at hn
          cases hn
      obtain ⟨m, hserves, hstored⟩ := h.memory
      have hnone : Stored codec c.secretKey none (m i) := hn ▸ hstored i hi.1 hmiss
      have hstarves := readFromOram_starves hempty ⟨⟨m, hserves, hnone⟩, hi, hmiss⟩
      exact Ends.bind (hstarves.imp (fun _ _ hfalse => hfalse) fun _ _ _ => trivial)
        fun _ _ hfalse => hfalse.elim
    | some b =>
      apply (readFromOram_linked h hs hb).2.ends.bind
      intro root c₁ hpost
      obtain ⟨rfl, hshows, _⟩ := hpost
      rw [meets_iff hb]
      by_cases hkey : root.key = key
      · exact ends_ok (by rw [if_pos hkey]; rfl) fun _ => Or.inl hkey
      rw [if_neg hkey]
      have hnext := hrange i _ hb
      rw [next_linkOf] at hnext ⊢
      by_cases hlt : root.key < key
      · rw [if_pos hlt] at hnext ⊢
        rw [if_pos hlt]
        exact (ih hshows hnext).imp (fun _ _ hr hne => Or.inr (hr hne)) fun _ _ h => h
      · rw [if_neg hlt] at hnext ⊢
        rw [if_neg hlt]
        exact (ih hshows hnext).imp (fun _ _ hr hne => Or.inr (hr hne)) fun _ _ h => h

theorem walk_tree {item : Item} (hd : (ids t).Nodup) (h : lookup key t = some item) :
    Walk (linksOf t) key (rootOf t) (visitedIds key t) (key, item) := by
  induction t with
  | nil => cases h
  | node e l r hl hr =>
    have hde := distinct_node hd
    rw [lookup] at h
    rw [visitedIds, visited, rootOf]
    by_cases hkey : e.1 = key
    · subst hkey
      rw [if_pos rfl] at h ⊢
      cases h
      exact .found linksOf_root rfl
    rw [if_neg hkey] at h ⊢
    refine .step linksOf_root hkey ?_
    rw [Link.next]
    by_cases hlt : e.1 < key
    · rw [if_pos hlt] at h ⊢
      rw [if_pos hlt]
      exact (hr hde.nodup' h).congr fun j hj => linksOf_right hd (mem_visitedIds hj)
    · rw [if_neg hlt] at h ⊢
      rw [if_neg hlt]
      exact (hl hde.nodup h).congr fun j hj => linksOf_left hd (mem_visitedIds hj)

theorem meets_subtree {x : BinaryTree Entry} (hsub : ∀ j ∈ ids x, linksOf t j = linksOf x j)
    (hzero : linksOf t 0 = none) (hi : i ∈ ids x) (h : Meets (linksOf t) key i) :
    Meets (linksOf x) key i ∧ ∃ item, (key, item) ∈ entries x := by
  obtain ⟨path, e, hwalk⟩ := h
  have hstays : ∀ j ∈ path, j ∈ {j | j ∈ ids x} := by
    apply hwalk.stays hi
    intro j hj b hb
    rw [hsub j hj] at hb
    rcases (linksOf_some hb).2.2 key with hnext | hnext
    · exact Or.inr (hnext ▸ hzero)
    · exact Or.inl hnext
  have hwalk' := hwalk.congr fun j hj => (hsub j (hstays j hj)).symm
  obtain ⟨hkey, j, b, hb, rfl⟩ := hwalk'.ends
  exact ⟨⟨path, _, hwalk'⟩, b.entry.2, hkey ▸ (linksOf_some hb).2.1⟩

/-- A key of the tree is met from the nodes on its path, and from no others. -/
theorem meets_tree {item : Item} (hd : (ids t).Nodup) (ho : Ordered t) (hzero : 0 ∉ ids t)
    (h : lookup key t = some item) :
    Meets (linksOf t) key i ↔ i ∈ visitedIds key t := by
  constructor
  · intro hmeets
    have hnone := linksOf_none hzero
    obtain ⟨b, hb⟩ := hmeets.linked
    have hi := (linksOf_some hb).1
    induction t with
    | nil => cases h
    | node e l r hl hr =>
      have hde := distinct_node hd
      obtain ⟨hol, hor, hle, her⟩ := ordered_node.mp ho
      rw [mem_ids_node, not_or, not_or] at hzero
      rw [lookup] at h
      rw [visitedIds, visited, List.map_cons, List.mem_cons]
      rcases mem_ids_node.mp hi with heq | hil | hir
      · exact Or.inl heq
      · obtain ⟨hbelow, item', hmem⟩ := meets_subtree (fun j hj => linksOf_left hd hj) hnone hil
          hmeets
        have hgt : key < e.1 := hle _ hmem
        rw [if_neg hgt.ne', if_neg hgt.asymm] at h ⊢
        rw [linksOf_left hd hil] at hb
        exact Or.inr (hl hde.nodup hol hzero.2.1 h hbelow (linksOf_none hzero.2.1) hb hil)
      · obtain ⟨hbelow, item', hmem⟩ := meets_subtree (fun j hj => linksOf_right hd hj) hnone hir
          hmeets
        have hlt : e.1 < key := her _ hmem
        rw [if_neg hlt.ne, if_pos hlt] at h ⊢
        rw [linksOf_right hd hir] at hb
        exact Or.inr (hr hde.nodup' hor hzero.2.2 h hbelow (linksOf_none hzero.2.2) hb hir)
  · intro hi
    obtain ⟨rest, hrest, _⟩ := (walk_tree hd h).from_mem hi
    exact ⟨rest, _, hrest⟩

end StoredLinks
