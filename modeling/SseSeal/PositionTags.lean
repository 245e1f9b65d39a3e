import SseSeal.Dictionary

/-! The position tags that the nodes of the dictionary hold for their children. The end of a
session gives new tags to the nodes of the cache and rewrites the tags they hold for their
children, those of children that are not cached with 0. -/
namespace PositionTags

open Bytes Objects StateExcept StringCipher AvlTree BinaryTree OramReadPathEviction OramMemory
open OramAccessController ClientCache OdictClient ClientSession ClientTree Dictionary

inductive Action where
  | insert (node : Node)
  | find (key : Str)

/-- The actions between `ODS_start` and `ODS_finalize`, and the padding for a count of nodes. -/
structure Session where
  actions : List Action
  pad : ℤ → ℤ

section Runs

variable (codec : Codec Node) (fuel : ℕ)

def Action.run : Action → ClientM PUnit
  | insert n => do
    let res ← insertNode codec fuel n
    modify fun c => { c with rootId := res.id }
  | find key => do
    let _ ← findPriv codec key fuel (← get).rootId

def Session.run (s : Session) : ClientM (Client × Client) := do
  odsStart
  s.actions.forM (Action.run codec fuel)
  let before ← get
  odsFinalize codec (s.pad before.nodeCount)
  return (before, ← get)

def runSessions : List Session → ClientM (List (Client × Client))
  | [] => return []
  | s :: sessions => do
    let ends ← s.run codec fuel
    return ends :: (← runSessions sessions)

def serveSessions (sessions : List Session) : ClientM (List (Client × Client)) := do
  initDummyData codec
  runSessions codec fuel sessions

theorem find_eq_session (pad : ℤ → ℤ) (key : Str) :
    (do let _ ← OdictClient.find codec fuel pad key) =
      (do let _ ← (Session.mk [.find key] pad).run codec fuel : ClientM PUnit) := by
  simp [OdictClient.find, Session.run, Action.run]

theorem insertNodes_eq_session (pad : ℤ → ℤ) (nodes : List Node) :
    insertNodes codec fuel pad nodes =
      (do let _ ← (Session.mk (nodes.map .insert) pad).run codec fuel : ClientM PUnit) := by
  simp [insertNodes, Session.run, Action.run]

end Runs

def storedNode (codec : Codec Node) (c : Client) (id : ℤ) : Option Node :=
  match (cacheHelper codec id).run c with
  | .ok n _ => some n
  | .error _ _ => none

/-- The ids of the nodes that are linked to the root. -/
inductive InDictionary (codec : Codec Node) (c : Client) : ℤ → Prop where
  | root : c.rootId ≠ 0 → InDictionary codec c c.rootId
  | child {i : ℤ} {n : Node} (s : Side) : InDictionary codec c i → storedNode codec c i = some n →
      childId s n ≠ 0 → InDictionary codec c (childId s n)

/-- Each node holds the tags of its children, and the client that of the root. -/
structure Coherent (codec : Codec Node) (c : Client) : Prop where
  children : ∀ i n s, InDictionary codec c i → storedNode codec c i = some n → childId s n ≠ 0 →
    ∃ m, storedNode codec c (childId s n) = some m ∧ m.posTag = childTag s n
  root : c.rootId ≠ 0 → ∃ m, storedNode codec c c.rootId = some m ∧ m.posTag = c.rootPos

/-- The searches of a session started now leave a cache that knows the tags of the children
of its nodes. -/
def FindsTags (codec : Codec Node) (fuel : ℕ) (c : Client) : Prop :=
  ∀ keys : List Str, ∃ a c', (do
    odsStart
    (keys.map Action.find).forM (Action.run codec fuel)).run c = .ok a c' ∧
      ∀ e ∈ c'.cache.cacheItems, ∀ s, childId s e.2 ≠ 0 →
        ∃ m, storedNode codec c (childId s e.2) = some m ∧
          c'.cache.findPosById (childId s e.2) = m.posTag

def TagKnown (codec : Codec Node) (c : Client) (i : ℤ) : Prop :=
  Cached c i ∨ ∃ m, storedNode codec c i = some m ∧ m.posTag = 0

/-- The tags that the end of a session writes are known. -/
structure TagsKnown (codec : Codec Node) (c : Client) : Prop where
  children : ∀ i n s, c.cache.find? i = some n → childId s n ≠ 0 → TagKnown codec c (childId s n)
  root : c.rootId ≠ 0 → TagKnown codec c c.rootId

variable {codec : Codec Node} {fuel : ℕ} {c c' : Client} {V V' : ℤ → Option Node}
  {P : ℤ → Prop} {t : BinaryTree Entry} {done : List Node} {i : ℤ} {n : Node} {s : Side}

theorem storedNode_eq (h : Shows codec c V) (hV : V i = some n) (hmiss : ¬ Cached c i) :
    ∃ m, storedNode codec c i = some m ∧ clean m = n := by
  obtain ⟨m, c', hrun, hm, _⟩ := cacheHelper_returns h hV (not_not.mp hmiss)
  exact ⟨m, by rw [storedNode, hrun], hm⟩

theorem clean_of_stored (h : Shows codec c V) (hV : V i = some n) (hmiss : ¬ Cached c i) {m : Node}
    (hm : storedNode codec c i = some m) : clean m = n := by
  obtain ⟨m', hm', hclean⟩ := storedNode_eq h hV hmiss
  rw [hm] at hm'
  cases hm'
  exact hclean

@[simp] theorem childId_clean : childId s (clean n) = childId s n := by cases s <;> rfl

@[simp] theorem childTag_clean : childTag s (clean n) = childTag s n := by cases s <;> rfl

@[simp] theorem childId_tagged {tags : ℤ → ℤ} : childId s (tagged tags n) = childId s n := by
  cases s <;> rfl

@[simp] theorem childTag_tagged {tags : ℤ → ℤ} :
    childTag s (tagged tags n) = tags (childId s n) := by
  cases s <;> rfl

theorem rootOf_mem (h : rootOf t ≠ 0) : rootOf t ∈ ids t := by
  cases t with
  | nil => exact absurd rfl h
  | node e l r => exact (mem_ids_build (s := .left)).mpr (Or.inl rfl)

theorem carries_link (hc : Carries V P t) (hi : i ∈ ids t) : ∃ n, V i = some n ∧
    ∀ s, childId s n ≠ 0 → childId s n ∈ ids t ∧ (P (childId s n) → P i) := by
  induction t with
  | nil => cases hi
  | node e l r hl hr =>
    obtain ⟨⟨n, hn, hdesc⟩, hP, hcl, hcr⟩ := hc
    have hsub : ∀ j, j ∈ ids l ∨ j ∈ ids r → j ∈ ids (.node e l r) := fun j hj =>
      (mem_ids_build (s := .left)).mpr (Or.inr hj)
    rcases (mem_ids_build (s := .left)).mp hi with rfl | hi | hi
    · refine ⟨n, hn, ?_⟩
      intro s hs
      have hchild : childId s n ∈ ids l ∨ childId s n ∈ ids r := by
        cases s with
        | left =>
          rw [hdesc.child] at hs ⊢
          exact Or.inl (rootOf_mem hs)
        | right =>
          have hright : childId .right n = rootOf r := hdesc.otherChild
          rw [hright] at hs ⊢
          exact Or.inr (rootOf_mem hs)
      exact ⟨hsub _ hchild, hP _ hchild⟩
    · obtain ⟨m, hm, hlink⟩ := hl hcl hi
      exact ⟨m, hm, fun s hs => ⟨hsub _ (Or.inl (hlink s hs).1), (hlink s hs).2⟩⟩
    · obtain ⟨m, hm, hlink⟩ := hr hcr hi
      exact ⟨m, hm, fun s hs => ⟨hsub _ (Or.inr (hlink s hs).1), (hlink s hs).2⟩⟩

theorem inDictionary_of_mem (h : Shows codec c V) (hfree : ∀ j, ¬ Cached c j)
    (hc : Carries V P t) (hroot : rootOf t ≠ 0 → InDictionary codec c (rootOf t))
    (hi : i ∈ ids t) : InDictionary codec c i := by
  induction t with
  | nil => cases hi
  | node e l r hl hr =>
    obtain ⟨⟨n, hn, hdesc⟩, _, hcl, hcr⟩ := hc
    have hpos : e.2.id ≠ 0 := (h.valid _ n hn).pos.ne'
    have he : InDictionary codec c e.2.id := hroot hpos
    obtain ⟨m, hm, rfl⟩ := storedNode_eq h hn (hfree _)
    rcases (mem_ids_build (s := .left)).mp hi with rfl | hi | hi
    · exact he
    · refine hl hcl ?_ hi
      intro hs
      have hleft : childId .left m = rootOf l := hdesc.child
      exact hleft ▸ he.child .left hm (hleft ▸ hs)
    · refine hr hcr ?_ hi
      intro hs
      have hright : childId .right m = rootOf r := hdesc.otherChild
      exact hright ▸ he.child .right hm (hright ▸ hs)

theorem inDictionary_iff (h : Idle codec done c V) :
    InDictionary codec c i ↔ i ∈ ids (treeOf done) := by
  constructor
  · intro hi
    induction hi with
    | root hroot =>
      rw [h.rootId] at hroot ⊢
      exact rootOf_mem hroot
    | child s _ hn hs ih =>
      obtain ⟨m, hm, hlink⟩ := carries_link h.carries ih
      rcases clean_of_stored h.shows' hm (h.not_cached _) hn with rfl
      rw [← childId_clean] at hs ⊢
      exact (hlink s hs).1
  · refine inDictionary_of_mem h.shows' h.not_cached h.carries ?_
    rw [← h.rootId]
    exact InDictionary.root

structure Agree (V : ℤ → Option Node) (rootId rootPos : ℤ) : Prop where
  children : ∀ i n s m, V i = some n → childId s n ≠ 0 → V (childId s n) = some m →
    m.posTag = childTag s n
  root : ∀ m, rootId ≠ 0 → V rootId = some m → m.posTag = rootPos

theorem coherent_iff (h : Idle codec done c V) :
    Coherent codec c ↔ Agree V c.rootId c.rootPos := by
  constructor
  · rintro ⟨hchildren, hroot⟩
    constructor
    · intro i n s m hn hs hm
      have hi := (inDictionary_iff h).mpr (h.support i (by simp [hn]))
      obtain ⟨n', hn', rfl⟩ := storedNode_eq h.shows' hn (h.not_cached i)
      rw [childId_clean] at hs hm
      obtain ⟨m', hm', htag⟩ := hchildren i n' s hi hn' hs
      rcases clean_of_stored h.shows' hm (h.not_cached _) hm' with rfl
      rw [childTag_clean]
      exact htag
    · intro m hr hm
      obtain ⟨m', hm', htag⟩ := hroot hr
      rcases clean_of_stored h.shows' hm (h.not_cached _) hm' with rfl
      exact htag
  · rintro ⟨hchildren, hroot⟩
    constructor
    · intro i n s hi hn hs
      obtain ⟨n', hn', hlink⟩ := carries_link h.carries ((inDictionary_iff h).mp hi)
      rcases clean_of_stored h.shows' hn' (h.not_cached i) hn with rfl
      rw [← childId_clean] at hs
      obtain ⟨m, hm, _⟩ := carries_link h.carries (hlink s hs).1
      obtain ⟨m', hm', rfl⟩ := storedNode_eq h.shows' hm (h.not_cached _)
      have htag := hchildren i _ s _ hn' hs hm
      rw [childTag_clean] at htag
      exact ⟨m', hm', htag⟩
    · intro hr
      have hmem : c.rootId ∈ ids (treeOf done) := by
        rw [h.rootId] at hr ⊢
        exact rootOf_mem hr
      obtain ⟨m, hm, _⟩ := carries_link h.carries hmem
      obtain ⟨m', hm', rfl⟩ := storedNode_eq h.shows' hm (h.not_cached _)
      have htag := hroot _ hr hm
      exact ⟨m', hm', htag⟩

variable {V₀ : ℤ → Option Node} {tags : ℤ → ℤ}

theorem tagKnown_iff (h : Shows codec c V) (hV : V i = some n) :
    TagKnown codec c i ↔ Cached c i ∨ n.posTag = 0 := by
  by_cases hi : Cached c i
  · exact iff_of_true (Or.inl hi) (Or.inl hi)
  · obtain ⟨m, hm, rfl⟩ := storedNode_eq h hV hi
    have htag : (clean m).posTag = m.posTag := rfl
    simp [TagKnown, hi, hm, htag]

theorem settled_cached (h : Shows codec c V) (hi : Cached c i)
    (hn : settled tags c V i = some n) : ∃ m, V i = some m ∧ n = clean (tagged tags m) ∧
      n.posTag = tags i := by
  rw [settled, if_pos hi] at hn
  obtain ⟨m, hm, rfl⟩ := Option.map_eq_some_iff.mp hn
  exact ⟨m, hm, rfl, congrArg tags (h.valid i m hm).id_eq⟩

theorem settled_uncached (hi : ¬ Cached c i) : settled tags c V i = V i := if_neg hi

theorem agree_settled (h : Open codec V₀ done c' V) (hnone : ∀ i, ¬ Cached c' i → tags i = 0)
    (hagree : Agree V₀ c.rootId c.rootPos) (hknown : TagsKnown codec c') :
    Agree (settled tags c' V) c'.rootId (tags c'.rootId) := by
  have htag : ∀ j m, TagKnown codec c' j → settled tags c' V j = some m → m.posTag = tags j := by
    intro j m hj hm
    by_cases hc : Cached c' j
    · obtain ⟨_, _, _, htag⟩ := settled_cached h.shows' hc hm
      exact htag
    · rw [settled_uncached hc] at hm
      rw [hnone j hc]
      exact ((tagKnown_iff h.shows' hm).mp hj).resolve_left hc
  constructor
  · intro i n s m hn hs hm
    by_cases hi : Cached c' i
    · obtain ⟨n', hfind⟩ := Option.ne_none_iff_exists'.mp hi
      obtain ⟨n₁, hn₁, rfl, _⟩ := settled_cached h.shows' hi hn
      have hn' := h.shows'.cached i n' hfind
      rw [hn₁] at hn'
      cases hn'
      rw [childId_clean, childId_tagged, childId_clean] at hs hm
      rw [childTag_clean, childTag_tagged, childId_clean]
      exact htag _ m (hknown.children i n' s hfind hs) hm
    · rw [settled_uncached hi] at hn
      have hmem := h.support i (by simp [hn])
      obtain ⟨n', hn', hlink⟩ := carries_link h.carries hmem
      rw [hn] at hn'
      cases hn'
      have hj : ¬ Cached c' (childId s n) := fun hc => hi ((hlink s hs).2 hc)
      rw [settled_uncached hj, h.untouched _ hj] at hm
      rw [h.untouched i hi] at hn
      exact hagree.children i n s m hn hs hm
  · intro m hr hm
    exact htag _ m (hknown.root hr) hm

theorem known_of_agree (h : Open codec V₀ done c' V)
    (hnone : ∀ i, ¬ Cached c' i → tags i = 0)
    (hagree : Agree (settled tags c' V) c'.rootId (tags c'.rootId)) : TagsKnown codec c' := by
  constructor
  · intro i n s hfind hs
    by_cases hj : Cached c' (childId s n)
    · exact Or.inl hj
    · have hi : Cached c' i := by simp [Cached, hfind]
      have hn := h.shows'.cached i n hfind
      obtain ⟨n', hn', hlink⟩ := carries_link h.carries (h.support i (by simp [hn]))
      rw [hn] at hn'
      cases hn'
      rw [← childId_clean] at hs
      obtain ⟨m, hm, _⟩ := carries_link h.carries (hlink s hs).1
      rw [childId_clean] at hs hm
      have hset : settled tags c' V i = some (clean (tagged tags (clean n))) := by
        rw [settled, if_pos hi, hn]
        rfl
      have htag := hagree.children i _ s m hset (by simpa using hs)
        (by simpa [settled_uncached hj] using hm)
      rw [childTag_clean, childTag_tagged, childId_clean, hnone _ hj] at htag
      exact (tagKnown_iff h.shows' hm).mpr (Or.inr htag)
  · intro hr
    by_cases hc : Cached c' c'.rootId
    · exact Or.inl hc
    · have hmem : c'.rootId ∈ ids (treeOf done) := by
        rw [h.rootId] at hr ⊢
        exact rootOf_mem hr
      obtain ⟨m, hm, _⟩ := carries_link h.carries hmem
      have htag := hagree.root m hr (by rwa [settled_uncached hc])
      rw [hnone _ hc] at htag
      exact (tagKnown_iff h.shows' hm).mpr (Or.inr htag)

def Action.nodes : Action → List Node
  | insert n => [n]
  | find _ => []

def Session.nodes (s : Session) : List Node := s.actions.flatMap Action.nodes

theorem action_returns (h : Open codec V₀ done c V) (a : Action)
    (hins : Insertable (done ++ a.nodes)) (hf : (done ++ a.nodes).length < fuel) :
    Returns (a.run codec fuel) c fun _ c' => ∃ V', Open codec V₀ (done ++ a.nodes) c' V' := by
  rw [List.length_append] at hf
  cases a with
  | insert n => exact insertOne_returns h hins ((Nat.le_add_right _ _).trans_lt hf)
  | find key =>
    rw [Action.nodes, List.append_nil] at hins ⊢
    refine returns_get.bind ?_
    intro _ c hpost
    obtain ⟨rfl, rfl⟩ := hpost
    refine (findOne_returns h hins ((Nat.le_add_right _ _).trans_lt hf) key).bind ?_
    intro _ c₁ hpost
    obtain ⟨_, hopen, _⟩ := hpost
    exact returns_pure ⟨V, hopen⟩

theorem actions_returns {actions : List Action} (h : Open codec V₀ done c V)
    (hins : Insertable (done ++ actions.flatMap Action.nodes))
    (hf : (done ++ actions.flatMap Action.nodes).length < fuel) :
    Returns (actions.forM (Action.run codec fuel)) c fun _ c' =>
      ∃ V', Open codec V₀ (done ++ actions.flatMap Action.nodes) c' V' := by
  refine (returns_forM (fun l u => ∃ pre V', pre ++ l.flatMap Action.nodes =
    done ++ actions.flatMap Action.nodes ∧ Open codec V₀ pre u V') ?_ ?_).imp ?_
  · intro a l u hpost
    obtain ⟨pre, V', hpre, hopen⟩ := hpost
    rw [List.flatMap_cons, ← List.append_assoc] at hpre
    have hlen : (pre ++ a.nodes).length < fuel := by
      rw [← hpre, List.length_append] at hf
      omega
    have hsub := hins.sub (hpre ▸ List.sublist_append_left (pre ++ a.nodes) _)
    refine (action_returns hopen a hsub hlen).imp ?_
    intro _ u' hpost
    obtain ⟨V'', hopen'⟩ := hpost
    exact ⟨pre ++ a.nodes, V'', hpre, hopen'⟩
  · exact ⟨done, V, rfl, h⟩
  · intro _ u hpost
    obtain ⟨pre, V', hpre, hopen⟩ := hpost
    rw [List.flatMap_nil, List.append_nil] at hpre
    exact ⟨V', hpre ▸ hopen⟩

theorem session_returns (h : Idle codec done c V) (s : Session)
    (hins : Insertable (done ++ s.nodes)) (hf : (done ++ s.nodes).length < fuel) :
    Returns (s.run codec fuel) c fun ends c' => ends.2 = c' ∧
      (∃ V', Idle codec (done ++ s.nodes) c' V') ∧
      (Coherent codec c → TagsKnown codec ends.1 → Coherent codec c') ∧
      (Coherent codec c' → TagsKnown codec ends.1) := by
  refine (odsStart_returns h).bind ?_
  intro _ c₁ hpost
  obtain ⟨hstart, _, hopen⟩ := hpost
  refine (actions_returns hopen hins hf).bind ?_
  intro _ c₂ hpost
  obtain ⟨V₂, hopen₂⟩ := hpost
  refine returns_get.bind ?_
  intro _ c₂ hpost
  obtain ⟨rfl, rfl⟩ := hpost
  refine (finish_returns hopen₂ _).bind ?_
  intro _ c₃ hpost
  obtain ⟨tags, hfin, hidle⟩ := hpost
  refine returns_get.bind ?_
  intro _ c₃ hpost
  obtain ⟨rfl, rfl⟩ := hpost
  refine returns_pure ⟨rfl, ⟨_, hidle⟩, ?_, ?_⟩
  · intro hc hknown
    rw [coherent_iff hidle, hfin.rootId, hfin.rootPos]
    exact agree_settled hopen₂ hfin.tags_eq ((coherent_iff h).mp hc) hknown
  · intro hc
    rw [coherent_iff hidle, hfin.rootId, hfin.rootPos] at hc
    exact known_of_agree hopen₂ hfin.tags_eq hc

/-- Searches leave a cache of stored nodes, whose tags are those of their children. -/
theorem finds_tags (h : Idle codec done c V) (hdone : Insertable done) (hf : done.length < fuel)
    (hc : Coherent codec c) : FindsTags codec fuel c := by
  intro keys
  have hagree := (coherent_iff h).mp hc
  have hsearches : Returns (do
      odsStart
      (keys.map Action.find).forM (Action.run codec fuel)) c fun _ c' =>
        Open codec V done c' V := by
    refine (odsStart_returns h).bind ?_
    intro _ c₁ hpost
    obtain ⟨_, _, hopen⟩ := hpost
    refine (returns_forM (fun l u => (∀ a ∈ l, ∃ key, a = Action.find key) ∧
      Open codec V done u V) ?_ ?_).imp fun _ _ hu => hu.2
    · intro a l u hpost
      obtain ⟨hl, hu⟩ := hpost
      obtain ⟨key, rfl⟩ := hl a List.mem_cons_self
      refine returns_get.bind ?_
      intro _ u hpost
      obtain ⟨rfl, rfl⟩ := hpost
      refine (findOne_returns hu hdone hf key).bind ?_
      intro _ u' hpost
      obtain ⟨_, hu', _⟩ := hpost
      exact returns_pure ⟨fun a ha => hl a (List.mem_cons_of_mem _ ha), hu'⟩
    · refine ⟨?_, hopen⟩
      intro a ha
      obtain ⟨key, _, rfl⟩ := List.mem_map.mp ha
      exact ⟨key, rfl⟩
  obtain ⟨a, c', hrun, hopen⟩ := hsearches
  refine ⟨a, c', hrun, ?_⟩
  have hheld : ∀ e ∈ c'.cache.cacheItems, V e.1 = some (clean e.2) := fun e he =>
    hopen.shows'.cached e.1 e.2 ((find?_eq_some hopen.shows'.cache.nodup).mpr he)
  intro e he s hs
  obtain ⟨n, hn, hlink⟩ := carries_link h.carries (h.support e.1 (by simp [hheld e he]))
  rw [hheld e he] at hn
  cases hn
  obtain ⟨m, hm, _⟩ := carries_link h.carries (hlink s (by simpa using hs)).1
  rw [childId_clean] at hm
  obtain ⟨m', hm', rfl⟩ := storedNode_eq h.shows' hm (h.not_cached _)
  refine ⟨m', hm', ?_⟩
  have htag : ∀ p ∈ c'.cache.cacheItems, ∀ side, childId side p.2 = childId s e.2 →
      childTag side p.2 = m'.posTag := by
    intro p hp side heq
    rw [← heq] at hm hs
    have hagreed := hagree.children p.1 (clean p.2) side _ (hheld p hp) (by simpa using hs)
      (by simpa using hm)
    rw [childTag_clean] at hagreed
    exact hagreed.symm
  have hparent : (decide (e.2.leftId = childId s e.2 ∨ e.2.rightId = childId s e.2)) = true := by
    cases s with
    | left => simp [childId, Side.pick]
    | right => simp [childId, Side.pick]
  rw [Cache.findPosById]
  cases hfind : c'.cache.cacheItems.find? fun p =>
      p.2.leftId = childId s e.2 ∨ p.2.rightId = childId s e.2 with
  | none => exact absurd hparent (List.find?_eq_none.mp hfind e he)
  | some p =>
    have hp := List.mem_of_find?_eq_some hfind
    have hside : p.2.leftId = childId s e.2 ∨ p.2.rightId = childId s e.2 := by
      simpa using List.find?_some hfind
    by_cases hleft : p.2.leftId = childId s e.2
    · exact (if_pos hleft).trans (htag p hp .left hleft)
    · exact (if_neg hleft).trans (htag p hp .right (hside.resolve_left hleft))

theorem runSessions_returns {sessions : List Session} (h : Idle codec done c V)
    (hins : Insertable (done ++ sessions.flatMap Session.nodes))
    (hf : (done ++ sessions.flatMap Session.nodes).length < fuel) :
    Returns (runSessions codec fuel sessions) c fun log _ => log.length = sessions.length ∧
      (∀ e ∈ log, Coherent codec e.2 → FindsTags codec fuel e.2 ∧ TagsKnown codec e.1) ∧
      (Coherent codec c → (∀ e ∈ log, TagsKnown codec e.1) → ∀ e ∈ log, Coherent codec e.2) := by
  induction sessions generalizing c V done with
  | nil => exact returns_pure ⟨rfl, by simp, by simp⟩
  | cons s sessions ih =>
    rw [List.flatMap_cons, ← List.append_assoc] at hins hf
    have hinsHead := hins.sub (List.sublist_append_left (done ++ s.nodes) _)
    have hfHead : (done ++ s.nodes).length < fuel := by
      rw [List.length_append] at hf
      omega
    refine (session_returns h s hinsHead hfHead).bind ?_
    rintro ⟨before, after⟩ c₁ ⟨rfl, ⟨V₁, hidle⟩, hkeep, hneeds⟩
    refine (ih hidle hins hf).bind ?_
    intro log c₂ hpost
    obtain ⟨hlen, hall, hrest⟩ := hpost
    refine returns_pure ⟨by simp [hlen], ?_, ?_⟩
    · intro e he hc
      rcases List.mem_cons.mp he with rfl | he
      · exact ⟨finds_tags hidle hinsHead hfHead hc, hneeds hc⟩
      · exact hall e he hc
    · intro hc hknown
      have hafter := hkeep hc (hknown _ List.mem_cons_self)
      intro e he
      rcases List.mem_cons.mp he with rfl | he
      · exact hafter
      · exact hrest hafter (fun e he => hknown e (List.mem_cons_of_mem _ he)) e he

section Serve

variable {bucketSize blockNumber : ℕ} {storage : Storage} {randGen : RandomForOram} {o : Oram}

/-- The tags agree after all sessions of a run, and then searches find them, if and only if
every session knows the tags that its end writes. -/
theorem coherent_tags_iff (codec : Codec Node) (hs : ∀ k, storage.fails k = false)
    (hbuild : construct.run (blank bucketSize blockNumber storage randGen) = .ok ⟨⟩ o)
    (order : HashOrder) {secretKey : Str} (hkey : 16 ≤ secretKey.length) {sessions : List Session}
    (hins : Insertable (sessions.flatMap Session.nodes))
    (hf : (sessions.flatMap Session.nodes).length < fuel) :
    ∃ log c, (serveSessions codec fuel sessions).run (Client.fresh secretKey order o) =
        .ok log c ∧ log.length = sessions.length ∧
      ((∀ e ∈ log, Coherent codec e.2 ∧ FindsTags codec fuel e.2) ↔
        ∀ e ∈ log, TagsKnown codec e.1) := by
  have hrun : Returns (serveSessions codec fuel sessions) (Client.fresh secretKey order o)
      fun log _ => log.length = sessions.length ∧
        ((∀ e ∈ log, Coherent codec e.2 ∧ FindsTags codec fuel e.2) ↔
          ∀ e ∈ log, TagsKnown codec e.1) := by
    refine (fresh_idle hs hbuild order hkey).bind ?_
    intro _ c hpost
    obtain ⟨⟨V, hidle⟩, _⟩ := hpost
    have hstart : Coherent codec c := by
      have hroot : c.rootId = 0 := hidle.rootId
      have hnone : ∀ i n, V i ≠ some n := fun i n hn => by
        cases hidle.support i (by simp [hn])
      exact (coherent_iff hidle).mpr ⟨fun i n s m hn => absurd hn (hnone i n),
        fun m hr => absurd hroot hr⟩
    refine (runSessions_returns hidle hins hf).imp ?_
    intro log _ hpost
    obtain ⟨hlen, hall, hkeep⟩ := hpost
    refine ⟨hlen, ?_⟩
    constructor
    · intro h e he
      exact (hall e he (h e he).1).2
    · intro h e he
      have hc := hkeep hstart h e he
      exact ⟨hc, (hall e he hc).1⟩
  obtain ⟨log, c, hok, hlen, hiff⟩ := hrun
  exact ⟨log, c, hok, hlen, hiff⟩

end Serve

def rootSearch : List Session :=
  [⟨[.insert (.fresh 1 [97] []), .insert (.fresh 2 [98] [])], fun _ => 0⟩,
    ⟨[.find [97]], fun _ => 0⟩]

theorem coherent_tags_iff_root_search :
    ∃ (o : Oram) (log : List (Client × Client)) (c : Client),
      construct.run (blank 1 2 .new ⟨0, fun _ => 1, 0⟩) = .ok ⟨⟩ o ∧
      (serveSessions ObjectArchive.nodeCodec 4 rootSearch).run
        (Client.fresh sampleKey .newestFirst o) = .ok log c ∧ log.length = 2 ∧
      ((∀ e ∈ log, Coherent ObjectArchive.nodeCodec e.2 ∧
          FindsTags ObjectArchive.nodeCodec 4 e.2) ↔
        ∀ e ∈ log, TagsKnown ObjectArchive.nodeCodec e.1) := by
  have hbuild : ∃ o, construct.run (blank 1 2 .new ⟨0, fun _ => 1, 0⟩) = .ok ⟨⟩ o := ⟨_, rfl⟩
  obtain ⟨o, hbuild⟩ := hbuild
  have hins : Insertable (rootSearch.flatMap Session.nodes) :=
    ⟨by decide, by decide, by simp [rootSearch, Session.nodes, Action.nodes, Node.fresh, Storable,
      blockBytes], by decide⟩
  have hf : (rootSearch.flatMap Session.nodes).length < 4 := by decide
  obtain ⟨log, c, hrun, hlen, hiff⟩ := coherent_tags_iff ObjectArchive.nodeCodec (fun _ => rfl)
    hbuild .newestFirst sampleKey_length hins hf
  exact ⟨o, log, c, hbuild, hrun, hlen, hiff⟩

def clientAfter (sessions : List Session) : Option Client :=
  match construct.run (blank 1 2 .new ⟨0, fun _ => 1, 0⟩) with
  | .error _ _ => none
  | .ok _ o =>
    match (serveSessions ObjectArchive.nodeCodec 4 sessions).run
        (Client.fresh sampleKey .newestFirst o) with
    | .error _ _ => none
    | .ok _ c => some c

/-- The root holds the tag 0 for its child on the right, which has the tag 1. -/
theorem root_search_forgets_tag : ∃ c n m, clientAfter rootSearch = some c ∧
    storedNode ObjectArchive.nodeCodec c 1 = some n ∧
    storedNode ObjectArchive.nodeCodec c 2 = some m ∧ c.rootId = 1 ∧
    childId .right n = 2 ∧ childTag .right n = 0 ∧ m.posTag = 1 := by
  have hvalues : (do
      let c ← clientAfter rootSearch
      let n ← storedNode ObjectArchive.nodeCodec c 1
      let m ← storedNode ObjectArchive.nodeCodec c 2
      return (c.rootId, childId .right n, childTag .right n, m.posTag)) = some (1, 2, 0, 1) := by
    decide +kernel
  simp only [Option.bind_eq_bind, Option.bind_eq_some_iff, Option.pure_def, Option.some.injEq,
    Prod.mk.injEq] at hvalues
  obtain ⟨c, hc, n, hn, m, hm, hroot, hchild, htag, hpos⟩ := hvalues
  exact ⟨c, n, m, hc, hn, hm, hroot, hchild, htag, hpos⟩

theorem incoherent_of_tags {m : Node} (hn : storedNode codec c c.rootId = some n)
    (hm : storedNode codec c (childId s n) = some m) (hroot : c.rootId ≠ 0)
    (hchild : childId s n ≠ 0) (htag : m.posTag ≠ childTag s n) : ¬ Coherent codec c := by
  intro h
  obtain ⟨m', hm', heq⟩ := h.children c.rootId n s (.root hroot) hn hchild
  rw [hm] at hm'
  cases hm'
  exact htag heq

theorem root_search_incoherent : ∃ c, clientAfter rootSearch = some c ∧
    ¬ Coherent ObjectArchive.nodeCodec c := by
  obtain ⟨c, n, m, hc, hn, hm, hroot, hchild, htag, hpos⟩ := root_search_forgets_tag
  rw [← hroot] at hn
  rw [← hchild] at hm
  have hincoherent := incoherent_of_tags hn hm (by omega) (by omega) (by omega)
  exact ⟨c, hc, hincoherent⟩

end PositionTags
