import SseSeal.ClientSession

/-! The nodes of a session linked to a search tree: reads and writes of the client refine the
operations of the tree. -/
namespace ClientTree

open Bytes Objects StateExcept StringCipher AvlTree BinaryTree OdictClient ClientSession

structure Item where
  id : ℤ
  data : Str
  deriving DecidableEq, Repr

abbrev Entry := Str × Item

def rootOf : BinaryTree Entry → ℤ
  | .nil => 0
  | .node e _ _ => e.2.id

def ids (t : BinaryTree Entry) : List ℤ := (entries t).map fun e => e.2.id

/-- The node of an entry that has the trees `x` and `y` below it, `x` on the side `s`. -/
structure Describes (s : Side) (n : Node) (e : Entry) (x y : BinaryTree Entry) : Prop where
  id : n.id = e.2.id
  key : n.key = e.1
  data : n.data = e.2.data
  child : childId s n = rootOf x
  otherChild : childId s.other n = rootOf y
  height : childHeight s n = x.height
  otherHeight : childHeight s.other n = y.height

/-- The nodes `V` are linked as the tree is, and the nodes with `P` are closed upwards. -/
def Carries (V : ℤ → Option Node) (P : ℤ → Prop) : BinaryTree Entry → Prop
  | .nil => True
  | .node e l r => (∃ n, V e.2.id = some n ∧ Describes .left n e l r) ∧
      (∀ i, i ∈ ids l ∨ i ∈ ids r → P i → P e.2.id) ∧ Carries V P l ∧ Carries V P r

variable {codec : Codec Node} {c c' : Client} {V V' : ℤ → Option Node} {P P' : ℤ → Prop}
  {s : Side} {e d f : Entry} {t x y z w : BinaryTree Entry} {n : Node} {i : ℤ}

theorem Describes.other (h : Describes s n e x y) : Describes s.other n e y x := by
  refine ⟨h.id, h.key, h.data, h.otherChild, ?_, h.otherHeight, ?_⟩
  · rw [Side.other_other]
    exact h.child
  · rw [Side.other_other]
    exact h.height

@[simp] theorem rootOf_build : rootOf (build s e x y) = e.2.id := rfl

theorem mem_ids_build : i ∈ ids (build s e x y) ↔ i = e.2.id ∨ i ∈ ids x ∨ i ∈ ids y := by
  cases s with
  | left =>
    simp only [ids, build, Side.pick, entries_node, List.map_append, List.map_cons,
      List.mem_append, List.mem_cons]
    tauto
  | right =>
    simp only [ids, build, Side.pick, entries_node, List.map_append, List.map_cons,
      List.mem_append, List.mem_cons]
    tauto

structure Distinct (e : Entry) (x y : BinaryTree Entry) : Prop where
  notMem : e.2.id ∉ ids x
  notMem' : e.2.id ∉ ids y
  nodup : (ids x).Nodup
  nodup' : (ids y).Nodup
  disjoint : ∀ i ∈ ids x, i ∉ ids y

theorem nodup_build : (ids (build s e x y)).Nodup ↔ Distinct e x y := by
  have hnode : ∀ l r : BinaryTree Entry, (ids (.node e l r)).Nodup ↔ Distinct e l r := by
    intro l r
    have hids : ids (.node e l r) = ids l ++ e.2.id :: ids r := by simp [ids]
    rw [hids, List.nodup_append, List.nodup_cons]
    constructor
    · rintro ⟨hl, ⟨her, hr⟩, hlr⟩
      refine ⟨fun hel => ?_, her, hl, hr, fun i hil hir => ?_⟩
      · exact hlr _ hel _ List.mem_cons_self rfl
      · exact hlr i hil i (List.mem_cons_of_mem _ hir) rfl
    · rintro ⟨hel, her, hl, hr, hlr⟩
      refine ⟨hl, ⟨her, hr⟩, ?_⟩
      intro i hil j hj hstep
      subst hstep
      rcases List.mem_cons.mp hj with rfl | hir
      · exact hel hil
      · exact hlr i hil hir
  cases s with
  | left => exact hnode x y
  | right =>
    refine (hnode y x).trans ⟨?_, ?_⟩
    · rintro ⟨h₁, h₂, h₃, h₄, h₅⟩
      exact ⟨h₂, h₁, h₄, h₃, fun i hx hy => h₅ i hy hx⟩
    · rintro ⟨h₁, h₂, h₃, h₄, h₅⟩
      exact ⟨h₂, h₁, h₄, h₃, fun i hx hy => h₅ i hy hx⟩

theorem carries_build : Carries V P (build s e x y) ↔
    (∃ n, V e.2.id = some n ∧ Describes s n e x y) ∧
      (∀ i, i ∈ ids x ∨ i ∈ ids y → P i → P e.2.id) ∧ Carries V P x ∧ Carries V P y := by
  cases s with
  | left => exact Iff.rfl
  | right =>
    constructor
    · rintro ⟨⟨n, hn, hdesc⟩, hp, hl, hr⟩
      exact ⟨⟨n, hn, hdesc.other⟩, fun i hi => hp i hi.symm, hr, hl⟩
    · rintro ⟨⟨n, hn, hdesc⟩, hp, hl, hr⟩
      exact ⟨⟨n, hn, hdesc.other⟩, fun i hi => hp i hi.symm, hr, hl⟩

/-- A tree does not depend on the nodes outside it. -/
theorem carries_congr (h : ∀ i ∈ ids t, V' i = V i ∧ (P' i ↔ P i)) :
    Carries V P t → Carries V' P' t := by
  induction t with
  | nil => exact id
  | node e l r hl hr =>
    have hmem : ∀ i, i ∈ ids (.node e l r) ↔ i = e.2.id ∨ i ∈ ids l ∨ i ∈ ids r := fun i =>
      mem_ids_build (s := .left)
    have hroot := h _ ((hmem _).mpr (Or.inl rfl))
    have hleft := fun i hi => h i ((hmem i).mpr (Or.inr (Or.inl hi)))
    have hright := fun i hi => h i ((hmem i).mpr (Or.inr (Or.inr hi)))
    rintro ⟨⟨n, hn, hdesc⟩, hp, hcl, hcr⟩
    refine ⟨⟨n, hroot.1.trans hn, hdesc⟩, ?_, hl hleft hcl, hr hright hcr⟩
    intro i hi hpi
    rw [hroot.2]
    rcases hi with hi | hi
    · exact hp i (Or.inl hi) ((hleft i hi).2.mp hpi)
    · exact hp i (Or.inr hi) ((hright i hi).2.mp hpi)

structure Tracks (codec : Codec Node) (K : Client → ℤ → Prop) : Prop where
  cached : ∀ {c : Client} {i : ℤ}, Cached c i → K c i
  outside : ∀ {S : Set ℤ} {c c' : Client} {V V' : ℤ → Option Node} {i : ℤ},
    Evolves codec S c V c' V' → i ∉ S → (K c' i ↔ K c i)

theorem tracks_cached : Tracks codec Cached :=
  ⟨id, fun h hi => ⟨(h.only _ hi).2, h.keeps _⟩⟩

theorem tracks_any : Tracks codec fun _ _ => True := ⟨fun _ => trivial, fun _ _ => Iff.rfl⟩

theorem Tracks.carries {K : Client → ℤ → Prop} {S : Set ℤ} (hK : Tracks codec K)
    (h : Evolves codec S c V c' V') (hout : ∀ i ∈ ids t, i ∉ S) (ht : Carries V (K c) t) :
    Carries V' (K c') t := by
  refine carries_congr ?_ ht
  intro i hi
  exact ⟨(h.only i (hout i hi)).1, hK.outside h (hout i hi)⟩

theorem evolves_carries {S : Set ℤ} (h : Evolves codec S c V c' V') (hout : ∀ i ∈ ids t, i ∉ S)
    (ht : Carries V (Cached c) t) : Carries V' (Cached c') t := tracks_cached.carries h hout ht

theorem Describes.valid {id : ℤ} {m : Node} {u v : BinaryTree Entry}
    (h : Describes s n e x y) (h' : Describes s m e u v) (hv : Valid id n) : Valid id m := by
  obtain ⟨hid, hpos, hlt, hkey, hdata⟩ := hv
  refine ⟨?_, hpos, hlt, ?_, ?_⟩
  · rw [h'.id, ← h.id, hid]
  · rwa [h'.key, ← h.key]
  · rwa [h'.data, ← h.data]

theorem describes_clean : Describes s (clean n) e x y ↔ Describes s n e x y := by
  constructor
  · rintro ⟨h₁, h₂, h₃, h₄, h₅, h₆, h₇⟩
    exact ⟨h₁, h₂, h₃, h₄, h₅, h₆, h₇⟩
  · rintro ⟨h₁, h₂, h₃, h₄, h₅, h₆, h₇⟩
    exact ⟨h₁, h₂, h₃, h₄, h₅, h₆, h₇⟩

theorem Describes.setChild (h : Describes s n e x y) :
    Describes s (setChild s (rootOf z) z.height n) e z y := by
  obtain ⟨h₁, h₂, h₃, h₄, h₅, h₆, h₇⟩ := h
  cases s with
  | left => exact ⟨h₁, h₂, h₃, rfl, h₅, rfl, h₇⟩
  | right => exact ⟨h₁, h₂, h₃, rfl, h₅, rfl, h₇⟩

theorem Describes.setChildTag (h : Describes s n e x y) (s' : Side) (tag : ℤ) :
    Describes s (setChildTag s' tag n) e x y := by
  obtain ⟨h₁, h₂, h₃, h₄, h₅, h₆, h₇⟩ := h
  cases s' with
  | left => exact ⟨h₁, h₂, h₃, h₄, h₅, h₆, h₇⟩
  | right => exact ⟨h₁, h₂, h₃, h₄, h₅, h₆, h₇⟩

theorem Describes.getHeight_eq (h : Describes s n e x y) :
    getHeight n = (build s e x y).height := by
  rw [height_build]
  have hx := h.height
  have hy := h.otherHeight
  cases s with
  | left =>
    have hl : n.leftHeight = x.height := hx
    have hr : n.rightHeight = y.height := hy
    rw [getHeight, hl, hr]
    omega
  | right =>
    have hl : n.leftHeight = y.height := hy
    have hr : n.rightHeight = x.height := hx
    rw [getHeight, hl, hr]
    omega

variable {K : Client → ℤ → Prop}

theorem readRoot_returns (hK : Tracks codec K) (h : Shows codec c V)
    (hc : Carries V (K c) (build s e x y)) (hd : Distinct e x y) :
    Returns (readFromOram codec e.2.id) c fun n c' => Describes s n e x y ∧ Valid e.2.id n ∧
      Evolves codec {e.2.id} c V c' V ∧ Counted c [e.2.id] c' ∧ Cached c' e.2.id ∧
      Carries V (K c') (build s e x y) := by
  rcases carries_build.mp hc with ⟨⟨n, hn, hdesc⟩, _, hx, hy⟩
  refine (readFromOram_returns h hn).imp ?_
  intro r c' hpost
  obtain ⟨rfl, hev, hcount⟩ := hpost
  have hcached : Cached c' e.2.id := (hcount.cached _).mpr (Or.inl List.mem_cons_self)
  refine ⟨describes_clean.mp hdesc, (Valid.clean_iff rfl).mpr (h.valid _ _ hn), hev, hcount,
    hcached, carries_build.mpr ⟨⟨_, hn, hdesc⟩, fun _ _ _ => hK.cached hcached, ?_, ?_⟩⟩
  · exact hK.carries hev (fun i hi heq => hd.notMem (heq ▸ hi)) hx
  · exact hK.carries hev (fun i hi heq => hd.notMem' (heq ▸ hi)) hy

theorem writeRoot_returns (hK : Tracks codec K) (h : Shows codec c V) (hv : Valid e.2.id n)
    (hdesc : Describes s n e x y) (hcached : Cached c e.2.id) (hx : Carries V (K c) x)
    (hy : Carries V (K c) y) (hex : e.2.id ∉ ids x) (hey : e.2.id ∉ ids y) :
    Returns (writeToOram codec n) c fun _ c' => ∃ V', Evolves codec {e.2.id} c V c' V' ∧
      Cached c' e.2.id ∧ Carries V' (K c') (build s e x y) := by
  refine (writeToOram_returns h hv hcached).imp ?_
  intro _ c' hpost
  obtain ⟨hev, hcached'⟩ := hpost
  refine ⟨_, hev, hcached', carries_build.mpr ⟨⟨_, Function.update_self .., ?_⟩, ?_, ?_, ?_⟩⟩
  · exact describes_clean.mpr hdesc
  · exact fun _ _ _ => hK.cached hcached'
  · exact hK.carries hev (fun i hi heq => hex (heq ▸ hi)) hx
  · exact hK.carries hev (fun i hi heq => hey (heq ▸ hi)) hy

theorem Carries.root_pos {l r : BinaryTree Entry} (hc : Carries V P (.node e l r))
    (h : Shows codec c V) : 0 < e.2.id := by
  obtain ⟨⟨n, hn, _⟩, _⟩ := hc
  exact (h.valid _ n hn).pos

structure IsRoot (r : Node) (t : BinaryTree Entry) : Prop where
  id : r.id = rootOf t
  height : getHeight r = t.height

theorem Describes.isRoot (h : Describes s n e x y) : IsRoot n (build s e x y) :=
  ⟨h.id, h.getHeight_eq⟩

/-- A step after which the client carries the tree `t`, with its root cached. -/
def Builds (codec : Codec Node) (S : Set ℤ) (c : Client) (V : ℤ → Option Node)
    (t : BinaryTree Entry) (c' : Client) : Prop :=
  ∃ V', Evolves codec S c V c' V' ∧ Cached c' (rootOf t) ∧ Carries V' (Cached c') t

def Rebuilds (codec : Codec Node) (K : Client → ℤ → Prop) (S : Set ℤ) (c : Client)
    (V : ℤ → Option Node) (t : BinaryTree Entry) (c' : Client) : Prop :=
  ∃ V', Evolves codec S c V c' V' ∧ Cached c' (rootOf t) ∧ Carries V' (K c') t

theorem rotateUp_returns (hK : Tracks codec K) (h : Shows codec c V)
    (hc : Carries V (K c) (build s e (build s d x y) z))
    (hd : (ids (build s e (build s d x y) z)).Nodup) :
    Returns (rotateUp codec s e.2.id) c fun r c' =>
      Rebuilds codec K {i | i = e.2.id ∨ i = d.2.id} c V (build s d x (build s e y z)) c' ∧
        IsRoot r (build s d x (build s e y z)) := by
  have hde := nodup_build.mp hd
  have hdd := nodup_build.mp hde.nodup
  have hmem : ∀ i, i ∈ ids (build s d x y) ↔ i = d.2.id ∨ i ∈ ids x ∨ i ∈ ids y :=
    fun i => mem_ids_build
  have hne : d.2.id ≠ e.2.id := fun heq => hde.notMem (heq ▸ (hmem _).mpr (Or.inl rfl))
  have hex : e.2.id ∉ ids x := fun hi => hde.notMem ((hmem _).mpr (Or.inr (Or.inl hi)))
  have hey : e.2.id ∉ ids y := fun hi => hde.notMem ((hmem _).mpr (Or.inr (Or.inr hi)))
  have hdz : d.2.id ∉ ids z := hde.disjoint _ ((hmem _).mpr (Or.inl rfl))
  refine (readRoot_returns hK h hc hde).bind ?_
  intro root c₁ hpost
  obtain ⟨hroot, hvroot, hev₁, _, hcached₁, hcarried₁⟩ := hpost
  rcases carries_build.mp hcarried₁ with ⟨_, _, hcd, hcz⟩
  have hchild : childId s root = d.2.id := hroot.child
  rw [hchild]
  refine (readRoot_returns hK hev₁.shows' hcd hdd).bind ?_
  intro child c₂ hpost
  obtain ⟨hchild, hvchild, hev₂, _, hcached₂, hcarried₂⟩ := hpost
  rcases carries_build.mp hcarried₂ with ⟨_, _, hcx, hcy⟩
  have hcz₂ := hK.carries hev₂ (fun i hi heq => hdz (heq ▸ hi)) hcz
  -- the root moves down, above the inner subtree
  have hroot' : Describes s (setChild s (childId s.other child) (childHeight s.other child)
      (setChildTag s (childTag s.other child) root)) e y z := by
    rw [hchild.otherChild, hchild.otherHeight]
    exact (hroot.setChildTag _ _).setChild
  refine (writeRoot_returns hK hev₂.shows' (hroot.valid hroot' hvroot) hroot'
    (hev₂.keeps _ hcached₁) hcy hcz₂ hey hde.notMem').bind ?_
  intro _ c₃ hpost
  obtain ⟨V₃, hev₃, hcached₃, hcarried₃⟩ := hpost
  have hcx₃ := hK.carries hev₃ (fun i hi heq => hex (heq ▸ hi)) hcx
  -- the child moves up, above the root
  have htagged := hchild.setChildTag s.other (setChild s (childId s.other child)
    (childHeight s.other child) (setChildTag s (childTag s.other child) root)).posTag
  have hchild' := htagged.other.setChild (z := build s e y z)
  rw [rootOf_build, ← hroot'.getHeight_eq] at hchild'
  have hchild'' := hchild'.other
  rw [Side.other_other] at hchild''
  have hnot : d.2.id ∉ ids (build s e y z) := by
    rw [mem_ids_build]
    rintro (heq | hi | hi)
    · exact hne heq
    · exact hdd.notMem' hi
    · exact hdz hi
  refine (writeRoot_returns hK hev₃.shows' (hchild.valid hchild'' hvchild) hchild''
    (hev₃.keeps _ hcached₂) hcx₃ hcarried₃ hdd.notMem hnot).bind ?_
  intro _ c₄ hpost
  obtain ⟨V₄, hev₄, hcached₄, hcarried₄⟩ := hpost
  refine returns_pure ⟨⟨V₄, ?_, hcached₄, hcarried₄⟩, hchild''.isRoot⟩
  have hsub : ∀ i, i = e.2.id → i ∈ {i | i = e.2.id ∨ i = d.2.id} := fun i hi => Or.inl hi
  have hsub' : ∀ i, i = d.2.id → i ∈ {i | i = e.2.id ∨ i = d.2.id} := fun i hi => Or.inr hi
  exact (((hev₁.mono hsub).trans (hev₂.mono hsub')).trans (hev₃.mono hsub)).trans (hev₄.mono hsub')

theorem ids_congr (h : entries x = entries y) : ids x = ids y := by rw [ids, ids, h]

theorem ids_build_congr (h : entries x = entries z) : ids (build s e x y) = ids (build s e z y) :=
  ids_congr (entries_build_congr h)

theorem Rebuilds.mono {S S' : Set ℤ} (h : Rebuilds codec K S c V t c') (hsub : S ⊆ S') :
    Rebuilds codec K S' c V t c' := by
  obtain ⟨V', hev, hcached, hcarries⟩ := h
  exact ⟨V', hev.mono hsub, hcached, hcarries⟩

theorem Rebuilds.after {S : Set ℤ} {c'' : Client} (hev : Evolves codec S c V c' V')
    (h : Rebuilds codec K S c' V' t c'') : Rebuilds codec K S c V t c'' := by
  obtain ⟨V'', hev', hcached, hcarries⟩ := h
  exact ⟨V'', hev.trans hev', hcached, hcarries⟩

theorem rotateTwice_returns (hK : Tracks codec K) (h : Shows codec c V)
    (hc : Carries V (K c) (build s e (build s d x (build s f z w)) y))
    (hd : (ids (build s e (build s d x (build s f z w)) y)).Nodup) :
    Returns (rotateTwice codec s e.2.id) c fun r c' =>
      Rebuilds codec K {i | i = e.2.id ∨ i ∈ ids (build s d x (build s f z w))} c V
        (build s f (build s d x z) (build s e w y)) c' ∧
        IsRoot r (build s f (build s d x z) (build s e w y)) := by
  have hde := nodup_build.mp hd
  have hinner : build s d x (build s f z w) = build s.other d (build s.other f w z) x := by
    rw [build_other, build_other]
  have hturned : build s.other f w (build s.other d z x) = build s f (build s d x z) w := by
    rw [build_other, build_other]
  have hmem : ∀ i, i ∈ ids (build s d x (build s f z w)) ↔ i = d.2.id ∨ i ∈ ids x ∨
      i = f.2.id ∨ i ∈ ids z ∨ i ∈ ids w := by
    intro i
    rw [mem_ids_build, mem_ids_build]
  have hentries : entries (build s f (build s d x z) w) =
      entries (build s d x (build s f z w)) := by
    rw [hinner, ← hturned, ← rotate_build, entries_rotate]
  refine (readRoot_returns hK h hc hde).bind ?_
  intro root c₁ hpost
  obtain ⟨hroot, hvroot, hev₁, _, hcached₁, hcarried₁⟩ := hpost
  rcases carries_build.mp hcarried₁ with ⟨_, _, hcx, hcy⟩
  have hchild : childId s root = d.2.id := hroot.child
  rw [hchild]
  rw [hinner] at hcx
  refine (rotateUp_returns hK hev₁.shows' hcx (hinner ▸ hde.nodup)).bind ?_
  intro child c₂ hpost
  obtain ⟨⟨V₂, hev₂, _, hcarried₂⟩, hchild⟩ := hpost
  rw [hturned] at hcarried₂ hchild
  have hroot₂ : e.2.id ∉ {i | i = d.2.id ∨ i = f.2.id} := by
    rintro (heq | heq)
    · exact hde.notMem ((hmem _).mpr (Or.inl heq))
    · exact hde.notMem ((hmem _).mpr (Or.inr (Or.inr (Or.inl heq))))
  have hcy₂ := hK.carries hev₂ (t := y) (fun i hi => by
    rintro (rfl | rfl)
    · exact hde.disjoint _ ((hmem _).mpr (Or.inl rfl)) hi
    · exact hde.disjoint _ ((hmem _).mpr (Or.inr (Or.inr (Or.inl rfl)))) hi) hcy
  -- the child now is the inner grandchild
  have hroot' := hroot.setChild (z := build s f (build s d x z) w)
  rw [← hchild.id, ← hchild.height] at hroot'
  have hids : ids (build s f (build s d x z) w) = ids (build s d x (build s f z w)) :=
    ids_congr hentries
  refine (writeRoot_returns hK hev₂.shows' (hroot.valid hroot' hvroot) hroot'
    (hev₂.keeps _ hcached₁) hcarried₂ hcy₂ (hids ▸ hde.notMem) hde.notMem').bind ?_
  intro _ c₃ hpost
  obtain ⟨V₃, hev₃, _, hcarried₃⟩ := hpost
  have hd₃ : (ids (build s e (build s f (build s d x z) w) y)).Nodup := by
    rw [ids_build_congr hentries]
    exact hd
  refine (rotateUp_returns hK hev₃.shows' hcarried₃ hd₃).imp ?_
  intro r c₄ hpost
  obtain ⟨hbuilds, hr⟩ := hpost
  refine ⟨?_, hr⟩
  have hstep : ∀ i, i = e.2.id → i ∈ {i | i = e.2.id ∨ i ∈ ids (build s d x (build s f z w))} :=
    fun i hi => Or.inl hi
  refine Rebuilds.after (hev₁.mono hstep) (Rebuilds.after (hev₂.mono ?_)
    (Rebuilds.after (hev₃.mono hstep) (hbuilds.mono ?_)))
  · rintro i (rfl | rfl)
    · exact Or.inr ((hmem _).mpr (Or.inl rfl))
    · exact Or.inr ((hmem _).mpr (Or.inr (Or.inr (Or.inl rfl))))
  · rintro i (rfl | rfl)
    · exact Or.inl rfl
    · exact Or.inr ((hmem _).mpr (Or.inr (Or.inr (Or.inl rfl))))

theorem repair_returns (hK : Tracks codec K) (h : Shows codec c V)
    (hc : Carries V (K c) (build s e x y))
    (hd : (ids (build s e x y)).Nodup) (hcached : Cached c e.2.id) (hx : 0 < x.height)
    {root : Node} (hroot : Describes s root e x y) :
    Returns (do
      let child ← readFromOram codec (childId s root)
      if childHeight s.other child ≤ childHeight s child then rotateUp codec s e.2.id
      else rotateTwice codec s e.2.id) c fun r c' =>
        Rebuilds codec K {i | i ∈ ids (build s e x y)} c V (repair s e x y) c' ∧
          IsRoot r (repair s e x y) := by
  cases x with
  | nil => exact absurd hx (lt_irrefl _)
  | node d l r =>
    rw [hroot.child, repair]
    rw [node_eq_build s d l r] at hc hd ⊢
    generalize s.pick l r = a at *
    generalize s.pick r l = b at *
    have hde := nodup_build.mp hd
    rcases carries_build.mp hc with ⟨hnode, _, hcx, hcy⟩
    refine (readRoot_returns hK h hcx (nodup_build.mp hde.nodup)).bind ?_
    intro child c₁ hpost
    obtain ⟨hchild, _, hev₁, _, _, hcx₁⟩ := hpost
    have hcy₁ := hK.carries hev₁ (t := y) (fun i hi heq =>
      hde.disjoint i (mem_ids_build.mpr (Or.inl heq)) hi) hcy
    have hc₁ : Carries V (K c₁) (build s e (build s d a b) y) :=
      carries_build.mpr ⟨hnode, fun _ _ _ => hK.cached (hev₁.keeps _ hcached), hcx₁, hcy₁⟩
    have hsub : ∀ i, i ∈ ids (build s d a b) → i ∈ ids (build s e (build s d a b) y) :=
      fun i hi => mem_ids_build.mpr (Or.inr (Or.inl hi))
    have hsingle : ∀ i, i = d.2.id → i ∈ {i | i ∈ ids (build s e (build s d a b) y)} :=
      fun i hi => hsub i (mem_ids_build.mpr (Or.inl hi))
    simp only [hchild.height, hchild.otherHeight, Nat.cast_le]
    split
    · rw [rotate_build]
      refine (rotateUp_returns hK hev₁.shows' hc₁ hd).imp ?_
      intro r c₂ hpost
      obtain ⟨hbuilds, hr⟩ := hpost
      refine ⟨Rebuilds.after (hev₁.mono hsingle) (hbuilds.mono ?_), hr⟩
      rintro i (rfl | rfl)
      · exact mem_ids_build.mpr (Or.inl rfl)
      · exact hsingle _ rfl
    · rename_i hhigh
      cases b with
      | nil => exact absurd (Nat.zero_le _) hhigh
      | node f l r =>
        rw [node_eq_build s f l r] at hc₁ hd hsub hsingle ⊢
        rw [rotate_inner]
        refine (rotateTwice_returns hK hev₁.shows' hc₁ hd).imp ?_
        intro r c₂ hpost
        obtain ⟨hbuilds, hr⟩ := hpost
        refine ⟨Rebuilds.after (hev₁.mono hsingle) (hbuilds.mono ?_), hr⟩
        rintro i (rfl | hi)
        · exact mem_ids_build.mpr (Or.inl rfl)
        · exact hsub i hi

theorem balance_returns {l r : BinaryTree Entry} (hK : Tracks codec K) (h : Shows codec c V)
    (hc : Carries V (K c) (.node e l r)) (hd : (ids (.node e l r)).Nodup) :
    Returns (OdictClient.balance codec e.2.id) c fun n c' =>
      Rebuilds codec K {i | i ∈ ids (.node e l r)} c V (AvlTree.balance (.node e l r)) c' ∧
        IsRoot n (AvlTree.balance (.node e l r)) := by
  have hcl : Carries V (K c) (build .left e l r) := hc
  have hdl : (ids (build .left e l r)).Nodup := hd
  refine (readRoot_returns hK h hcl (nodup_build.mp hdl)).bind ?_
  intro root c₁ hpost
  obtain ⟨hroot, _, hev₁, _, hcached₁, hc₁⟩ := hpost
  have hl : root.leftHeight = l.height := hroot.height
  have hr : root.rightHeight = r.height := hroot.otherHeight
  have hev : Evolves codec {i | i ∈ ids (.node e l r)} c V c₁ V :=
    hev₁.mono fun i hi => mem_ids_build (s := .left).mpr (Or.inl hi)
  rw [hl, hr, AvlTree.balance]
  by_cases hleft : r.height + 1 < l.height
  · have hcond : (1 : ℤ) < l.height - r.height := by omega
    rw [if_pos hcond, if_pos hleft]
    refine (repair_returns hK hev₁.shows' hc₁ hd hcached₁ (by omega) hroot).imp ?_
    intro n c₂ hpost
    obtain ⟨hbuilds, hn⟩ := hpost
    exact ⟨Rebuilds.after hev hbuilds, hn⟩
  · have hcond : ¬ (1 : ℤ) < l.height - r.height := by omega
    rw [if_neg hcond, if_neg hleft]
    by_cases hright : l.height + 1 < r.height
    · have hcond : (1 : ℤ) < r.height - l.height := by omega
      rw [if_pos hcond, if_pos hright]
      refine (repair_returns (s := .right) hK hev₁.shows' (x := r) (y := l) hc₁ hd hcached₁
        (by omega) hroot.other).imp ?_
      intro n c₂ hpost
      obtain ⟨hbuilds, hn⟩ := hpost
      exact ⟨Rebuilds.after hev hbuilds, hn⟩
    · have hcond : ¬ (1 : ℤ) < r.height - l.height := by omega
      rw [if_neg hcond, if_neg hright]
      exact returns_pure ⟨⟨V, hev, hcached₁, hc₁⟩, hroot.isRoot⟩

def entryOf (node : Node) : Entry := (node.key, ⟨node.id, node.data⟩)

def Leaf (node : Node) : Prop := Describes .left node (entryOf node) .nil .nil

def insertEntry (e : Entry) (t : BinaryTree Entry) : BinaryTree Entry := AvlTree.insert e.1 e.2 t

theorem mem_ids_insertEntry (h : i ∈ ids (insertEntry e t)) : i = e.2.id ∨ i ∈ ids t := by
  rcases List.mem_map.mp h with ⟨b, hb, rfl⟩
  rcases mem_entries_insert hb with rfl | hb
  · exact Or.inl rfl
  · exact Or.inr (List.mem_map_of_mem hb)

@[simp] theorem ids_balance : ids (AvlTree.balance t) = ids t := ids_congr entries_balance

theorem insertEntry_mem_ids (h : i ∈ ids t) : i ∈ ids (insertEntry e t) := by
  induction t with
  | nil => cases h
  | node b l r hl hr =>
    rw [insertEntry, AvlTree.insert]
    have hb := mem_ids_build (s := .left) (e := b) (x := l) (y := r) |>.mp h
    split
    · rw [ids_balance]
      exact (mem_ids_build (s := .left)).mpr (hb.imp_right fun hi => hi.imp_right hr)
    split
    · rw [ids_balance]
      exact (mem_ids_build (s := .left)).mpr (hb.imp_right fun hi => hi.imp_left hl)
    · rw [ids_balance]
      exact h

theorem nodup_insertEntry (hd : (ids t).Nodup) (hnew : e.2.id ∉ ids t) :
    (ids (insertEntry e t)).Nodup := by
  induction t with
  | nil => exact List.nodup_singleton _
  | node b l r hl hr =>
    have hdb : Distinct b l r := nodup_build (s := .left).mp hd
    have hmem : ∀ i, i ∈ ids (.node b l r) ↔ i = b.2.id ∨ i ∈ ids l ∨ i ∈ ids r :=
      fun i => mem_ids_build (s := .left)
    rw [hmem, not_or, not_or] at hnew
    obtain ⟨hnb, hnl, hnr⟩ := hnew
    rw [insertEntry, AvlTree.insert]
    split
    · rw [ids_balance]
      refine (nodup_build (s := .left)).mpr ⟨hdb.notMem, ?_, hdb.nodup, hr hdb.nodup' hnr, ?_⟩
      · intro hi
        rcases mem_ids_insertEntry hi with heq | hi
        · exact hnb heq.symm
        · exact hdb.notMem' hi
      · intro i hi hin
        rcases mem_ids_insertEntry hin with rfl | hin
        · exact hnl hi
        · exact hdb.disjoint i hi hin
    split
    · rw [ids_balance]
      refine (nodup_build (s := .left)).mpr ⟨?_, hdb.notMem', hl hdb.nodup hnl, hdb.nodup', ?_⟩
      · intro hi
        rcases mem_ids_insertEntry hi with heq | hi
        · exact hnb heq.symm
        · exact hdb.notMem hi
      · intro i hin hi
        rcases mem_ids_insertEntry hin with rfl | hin
        · exact hnr hi
        · exact hdb.disjoint i hin hi
    · rw [ids_balance]
      exact hd

theorem balanceWritten_returns {S : Set ℤ} {root : Node} (h : Shows codec c V)
    (hroot : Describes s root e x y) (hv : Valid e.2.id root) (hcached : Cached c e.2.id)
    (hx : Carries V (Cached c) x) (hy : Carries V (Cached c) y)
    (hd : (ids (build s e x y)).Nodup) (hS : ∀ i ∈ ids (build s e x y), i ∈ S) :
    Returns (do
      writeToOram codec root
      OdictClient.balance codec e.2.id) c fun r c' =>
        Builds codec S c V (AvlTree.balance (build s e x y)) c' ∧
          IsRoot r (AvlTree.balance (build s e x y)) := by
  have hde := nodup_build.mp hd
  refine (writeRoot_returns tracks_cached h hv hroot hcached hx hy hde.notMem hde.notMem').bind ?_
  intro _ c₁ hpost
  obtain ⟨V₁, hev, _, hc₁⟩ := hpost
  refine (balance_returns tracks_cached hev.shows' hc₁ hd).imp ?_
  intro r c₂ hpost
  obtain ⟨hbuilds, hr⟩ := hpost
  refine ⟨Rebuilds.after (hev.mono ?_) (hbuilds.mono hS), hr⟩
  intro i hstep
  subst hstep
  exact hS _ (mem_ids_build.mpr (Or.inl rfl))

theorem descend_returns {node root : Node} {fuel : ℕ} {a : Entry}
    (hrec : Returns (insertPriv codec node fuel (rootOf x)) c fun r c' =>
      Builds codec {i | i ∈ ids (insertEntry a x)} c V (insertEntry a x) c' ∧
        IsRoot r (insertEntry a x))
    (hroot : Describes s root e x y) (hv : Valid e.2.id root) (hcached : Cached c e.2.id)
    (hy : Carries V (Cached c) y) (hde : Distinct e x y) (hnew : a.2.id ∉ ids (build s e x y)) :
    Returns (do
      let cur ← insertPriv codec node fuel (childId s root)
      writeToOram codec (setChild s cur.id (getHeight cur) root)
      OdictClient.balance codec e.2.id) c fun r c' =>
        Builds codec {i | i ∈ ids (build s e (insertEntry a x) y)} c V
          (AvlTree.balance (build s e (insertEntry a x) y)) c' ∧
          IsRoot r (AvlTree.balance (build s e (insertEntry a x) y)) := by
  rw [mem_ids_build, not_or, not_or] at hnew
  obtain ⟨hne, hnx, hny⟩ := hnew
  have hsub : ∀ i ∈ ids (insertEntry a x), i = a.2.id ∨ i ∈ ids x :=
    fun i hi => mem_ids_insertEntry hi
  have hdi : Distinct e (insertEntry a x) y := by
    refine ⟨?_, hde.notMem', nodup_insertEntry hde.nodup hnx, hde.nodup', ?_⟩
    · intro hi
      rcases hsub _ hi with heq | hi
      · exact hne heq.symm
      · exact hde.notMem hi
    · intro i hi hiy
      rcases hsub i hi with rfl | hi
      · exact hny hiy
      · exact hde.disjoint i hi hiy
  rw [hroot.child]
  refine hrec.bind ?_
  intro cur c₁ hpost
  obtain ⟨⟨V₁, hev₁, _, hx₁⟩, hcur⟩ := hpost
  have hy₁ := evolves_carries hev₁ (t := y) (fun i hi hix => hdi.disjoint i hix hi) hy
  have hroot' := hroot.setChild (z := insertEntry a x)
  rw [← hcur.id, ← hcur.height] at hroot'
  have hev := hev₁.mono (show _ ⊆ {i | i ∈ ids (build s e (insertEntry a x) y)} from
    fun i hi => mem_ids_build.mpr (Or.inr (Or.inl hi)))
  refine (balanceWritten_returns hev.shows' hroot' (hroot.valid hroot' hv)
    (hev.keeps _ hcached) hx₁ hy₁ (nodup_build.mpr hdi) fun _ hi => hi).imp ?_
  intro r c₂ hpost
  obtain ⟨hbuilds, hr⟩ := hpost
  exact ⟨Rebuilds.after hev hbuilds, hr⟩

theorem insertPriv_returns {node : Node} (hleaf : Leaf node) (hv : Valid node.id node) {fuel : ℕ}
    (h : Shows codec c V) (hc : Carries V (Cached c) t) (hd : (ids t).Nodup)
    (hnew : node.id ∉ ids t) (hf : t.height < fuel) :
    Returns (insertPriv codec node fuel (rootOf t)) c fun r c' =>
      Builds codec {i | i ∈ ids (insertEntry (entryOf node) t)} c V
        (insertEntry (entryOf node) t) c' ∧ IsRoot r (insertEntry (entryOf node) t) := by
  induction t generalizing c V fuel with
  | nil =>
    cases fuel with
    | zero => exact absurd hf (Nat.not_lt_zero _)
    | succ fuel =>
      rw [insertPriv, rootOf, if_pos rfl]
      refine (odsInsert_returns h hv).bind ?_
      intro _ c₁ hpost
      obtain ⟨_, hev, hcached⟩ := hpost
      have hS : ({node.id} : Set ℤ) ⊆ {i | i ∈ ids (insertEntry (entryOf node) .nil)} :=
        fun i hi => List.mem_singleton.mpr hi
      refine returns_pure ⟨⟨_, hev.mono hS, hcached, ?_⟩, hleaf.isRoot⟩
      refine ⟨⟨_, Function.update_self .., describes_clean.mpr hleaf⟩, ?_, trivial, trivial⟩
      exact fun _ _ _ => hcached
  | node e l r hl hr =>
    cases fuel with
    | zero => exact absurd hf (Nat.not_lt_zero _)
    | succ fuel =>
      have hde : Distinct e l r := nodup_build (s := .left).mp hd
      have hder : Distinct e r l := nodup_build (s := .right).mp hd
      have hnl : node.id ∉ ids l := fun hi =>
        hnew (mem_ids_build (s := .left).mpr (Or.inr (Or.inl hi)))
      have hnr : node.id ∉ ids r := fun hi =>
        hnew (mem_ids_build (s := .left).mpr (Or.inr (Or.inr hi)))
      have hroot : rootOf (.node e l r) ≠ 0 := (hc.root_pos h).ne'
      have hfl : l.height < fuel := (le_max_left _ _).trans_lt (Nat.lt_of_succ_lt_succ hf)
      have hfr : r.height < fuel := (le_max_right _ _).trans_lt (Nat.lt_of_succ_lt_succ hf)
      have hcb : Carries V (Cached c) (build .left e l r) := hc
      rw [insertPriv, if_neg hroot]
      refine (readRoot_returns tracks_cached h hcb hde).bind ?_
      intro root c₁ hpost
      obtain ⟨hdesc, hvalid, hev₁, _, hcached₁, hc₁⟩ := hpost
      have hev := hev₁.mono
        (show _ ⊆ {i | i ∈ ids (insertEntry (entryOf node) (.node e l r))} by
          intro i hstep
          subst hstep
          exact insertEntry_mem_ids (mem_ids_build (s := .left).mpr (Or.inl rfl)))
      have hcarried := hc₁
      obtain ⟨_, _, hcl, hcr⟩ := hcarried
      rw [insertEntry, AvlTree.insert] at hev ⊢
      rw [hdesc.key]
      by_cases hgt : e.1 < (entryOf node).1
      · rw [if_pos hgt, ids_balance] at hev
        rw [if_pos hgt, ids_balance, if_pos (show e.1 < node.key from hgt)]
        have hrec := hr hev₁.shows' hcr hde.nodup' hnr hfr
        refine (descend_returns (s := .right) (a := entryOf node) hrec hdesc.other hvalid hcached₁
          hcl hder hnew).imp ?_
        intro n c₂ hpost
        obtain ⟨hbuilds, hn⟩ := hpost
        exact ⟨Rebuilds.after hev hbuilds, hn⟩
      · rw [if_neg hgt] at hev ⊢
        rw [if_neg (show ¬ e.1 < node.key from hgt)]
        by_cases hlt : (entryOf node).1 < e.1
        · rw [if_pos hlt, ids_balance] at hev
          rw [if_pos hlt, ids_balance, if_pos (show node.key < e.1 from hlt)]
          have hrec := hl hev₁.shows' hcl hde.nodup hnl hfl
          refine (descend_returns (s := .left) (a := entryOf node) hrec hdesc hvalid hcached₁
            hcr hde hnew).imp ?_
          intro n c₂ hpost
          obtain ⟨hbuilds, hn⟩ := hpost
          exact ⟨Rebuilds.after hev hbuilds, hn⟩
        · rw [if_neg hlt, ids_balance] at hev
          rw [if_neg hlt, ids_balance, if_neg (show ¬ node.key < e.1 from hlt)]
          refine (balanceWritten_returns hev₁.shows' hdesc hvalid hcached₁ hcl hcr hd
            fun _ hi => hi).imp ?_
          intro n c₂ hpost
          obtain ⟨hbuilds, hn⟩ := hpost
          exact ⟨Rebuilds.after hev hbuilds, hn⟩

def visitedIds (key : Str) (t : BinaryTree Entry) : List ℤ := (visited key t).map fun e => e.2.id

theorem mem_visitedIds {key : Str} (h : i ∈ visitedIds key t) : i ∈ ids t := by
  rcases List.mem_map.mp h with ⟨b, hb, rfl⟩
  exact List.mem_map_of_mem (visited_sublist key t b hb)

def Finds (key : Str) (found : Option Str) (answer : Option Node) : Prop :=
  match found with
  | none => answer = none
  | some data => ∃ n, answer = some n ∧ n.key = key ∧ n.data = data

/-- A search finds what the tree holds, and reads the nodes on its path. -/
theorem findPriv_returns {key : Str} {fuel : ℕ} (h : Shows codec c V)
    (hc : Carries V (Cached c) t) (hd : (ids t).Nodup) (hf : t.height < fuel) :
    Returns (findPriv codec key fuel (rootOf t)) c fun r c' =>
      Finds key ((lookup key t).map Item.data) r ∧ Evolves codec {i | i ∈ ids t} c V c' V ∧
        Carries V (Cached c') t ∧ Counted c (visitedIds key t) c' := by
  induction t generalizing c fuel with
  | nil =>
    cases fuel with
    | zero => exact absurd hf (Nat.not_lt_zero _)
    | succ fuel =>
      rw [findPriv, rootOf, if_pos rfl]
      exact returns_pure ⟨rfl, Evolves.refl h _, trivial, Counted.nil c⟩
  | node e l r hl hr =>
    cases fuel with
    | zero => exact absurd hf (Nat.not_lt_zero _)
    | succ fuel =>
      have hde : Distinct e l r := nodup_build (s := .left).mp hd
      have hroot : rootOf (.node e l r) ≠ 0 := (hc.root_pos h).ne'
      have hfl : l.height < fuel := (le_max_left _ _).trans_lt (Nat.lt_of_succ_lt_succ hf)
      have hfr : r.height < fuel := (le_max_right _ _).trans_lt (Nat.lt_of_succ_lt_succ hf)
      have hcb : Carries V (Cached c) (build .left e l r) := hc
      rw [findPriv, if_neg hroot]
      refine (readRoot_returns tracks_cached h hcb hde).bind ?_
      intro root c₁ hpost
      obtain ⟨hdesc, hvalid, hev₁, hcount₁, hcached₁, hc₁⟩ := hpost
      obtain ⟨hnode, _, hcl, hcr⟩ := hc₁
      have hsubl : ∀ i, i ∈ ids l → i ∈ ids (.node e l r) := fun i hi =>
        mem_ids_build (s := .left).mpr (Or.inr (Or.inl hi))
      have hsubr : ∀ i, i ∈ ids r → i ∈ ids (.node e l r) := fun i hi =>
        mem_ids_build (s := .left).mpr (Or.inr (Or.inr hi))
      have hev : Evolves codec {i | i ∈ ids (.node e l r)} c V c₁ V :=
        hev₁.mono fun i hi => mem_ids_build (s := .left).mpr (Or.inl hi)
      rw [lookup, visitedIds, visited, hdesc.key]
      by_cases heq : e.1 = key
      · rw [if_pos heq, if_pos heq, if_pos heq]
        refine returns_pure ⟨⟨root, rfl, hdesc.key.trans heq, hdesc.data⟩, hev,
          ⟨hnode, fun _ _ _ => hcached₁, hcl, hcr⟩, hcount₁⟩
      · rw [if_neg heq, if_neg heq, if_neg heq]
        by_cases hlt : e.1 < key
        · rw [if_pos hlt, if_pos hlt, if_pos hlt]
          have hright : root.rightId = rootOf r := hdesc.otherChild
          rw [hright]
          refine (hr hev₁.shows' hcr hde.nodup' hfr).imp ?_
          intro answer c₂ hpost
          obtain ⟨hans, hev₂, hcr₂, hcount₂⟩ := hpost
          have hcl₂ := evolves_carries hev₂ (t := l) (fun i hi hir => hde.disjoint i hi hir) hcl
          refine ⟨hans, hev.trans (hev₂.mono hsubr), ⟨hnode, fun _ _ _ => hev₂.keeps _ hcached₁,
            hcl₂, hcr₂⟩, hcount₁.cons hcount₂ ?_⟩
          exact fun hi => hde.notMem' (mem_visitedIds hi)
        · rw [if_neg hlt, if_neg hlt, if_neg hlt]
          have hleft : root.leftId = rootOf l := hdesc.child
          rw [hleft]
          refine (hl hev₁.shows' hcl hde.nodup hfl).imp ?_
          intro answer c₂ hpost
          obtain ⟨hans, hev₂, hcl₂, hcount₂⟩ := hpost
          have hcr₂ := evolves_carries hev₂ (t := r) (fun i hi hil => hde.disjoint i hil hi) hcr
          refine ⟨hans, hev.trans (hev₂.mono hsubl), ⟨hnode, fun _ _ _ => hev₂.keeps _ hcached₁,
            hcl₂, hcr₂⟩, hcount₁.cons hcount₂ ?_⟩
          exact fun hi => hde.notMem (mem_visitedIds hi)

end ClientTree
