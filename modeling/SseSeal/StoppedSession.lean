import SseSeal.InterruptedSession

/-! Where a session is when a storage call throws, and what the client and its memory hold
then. -/
namespace StoppedSession

open Bytes Objects StateExcept FaultyRuns StringCipher AvlTree BinaryTree OramReadPathEviction
open OramMemory OramFailure OramAccessController StorageFaults ClientCache OdictClient
open ClientSession ClientTree Dictionary PositionTags InterruptedSession

section Programs

variable (codec : Codec Node) (fuel : ℕ)

def begun (actions : List Action) : ClientM PUnit := do
  odsStart
  actions.forM (Action.run codec fuel)

def retagged (w : Session) (reads : ℕ) : ClientM PUnit := do
  begun codec fuel w.actions
  retagCache
  (List.range reads).forM fun _ => dummyRead

def evictions (count : ℕ) : ClientM PUnit := (List.range count).forM fun _ => evictNode codec

def padded (w : Session) (reads writes : ℕ) : ClientM PUnit := do
  retagged codec fuel w reads
  evictCache codec
  (List.range writes).forM fun _ => dummyWrite codec

end Programs

inductive Moment where
  | acting (completed : List Action)
  | evicting (written : List ℤ)
  | evicted

/-- A session from `c` stops in the state `u`, because an access throws that belongs to a step
begun in the state `s`. -/
inductive Stopped (codec : Codec Node) (fuel : ℕ) (w : Session) (c : Client) :
    Moment → Client → Client → Prop where
  | action {completed rest : List Action} {a : Action} {s u : Client} {e : AccessError} :
      w.actions = completed ++ a :: rest →
      (begun codec fuel completed).run c = .ok ⟨⟩ s →
      (a.run codec fuel).run s = .error (.access e) u →
      Stopped codec fuel w c (.acting completed) s u
  | dummyRead {reads : ℕ} {s u : Client} {e : AccessError} :
      (retagged codec fuel w reads).run c = .ok ⟨⟩ s →
      dummyRead.run s = .error (.access e) u →
      Stopped codec fuel w c (.acting w.actions) s u
  | eviction {reads count : ℕ} {r s u : Client} {e : AccessError} :
      (retagged codec fuel w reads).run c = .ok ⟨⟩ r →
      (evictions codec count).run r = .ok ⟨⟩ s →
      (evictNode codec).run s = .error (.access e) u →
      Stopped codec fuel w c (.evicting ((r.cache.cacheItems.take count).map Prod.fst)) s u
  | dummyWrite {reads writes : ℕ} {s u : Client} {e : AccessError} :
      (padded codec fuel w reads writes).run c = .ok ⟨⟩ s →
      (dummyWrite codec).run s = .error (.access e) u →
      Stopped codec fuel w c .evicted s u

variable {codec : Codec Node} {fuel : ℕ} {f : ℕ → Bool} {w : Session} {c s u : Client}
  {e : AccessError} {moment : Moment}

theorem Stopped.sublist {completed : List Action}
    (h : Stopped codec fuel w c (.acting completed) s u) (done : List Node) :
    (done ++ completed.flatMap Action.nodes).Sublist (done ++ w.nodes) := by
  apply List.Sublist.append_left
  cases h with
  | action hactions _ _ =>
    rw [Session.nodes, hactions, List.flatMap_append]
    exact List.sublist_append_left _ _
  | dummyRead _ _ => exact List.Sublist.refl _

theorem forM_const {ε σ α β : Type} (x : EStateM ε σ PUnit) {l : List α} {l' : List β}
    (h : l.length = l'.length) : (l.forM fun _ => x) = l'.forM fun _ => x := by
  induction l generalizing l' with
  | nil =>
    rw [List.eq_nil_of_length_eq_zero h.symm]
    rfl
  | cons a l ih =>
    cases l' with
    | nil => cases h
    | cons b l' =>
      change (x >>= fun _ => l.forM fun _ => x) = x >>= fun _ => l'.forM fun _ => x
      rw [ih (Nat.succ.inj h)]

theorem forM_const_error {ε σ α : Type} {x : EStateM ε σ PUnit} {l : List α} {s u : σ} {e : ε}
    (h : (l.forM fun _ => x).run s = .error e u) : ∃ rounds t,
      ((List.range rounds).forM fun _ => x).run s = .ok ⟨⟩ t ∧ x.run t = .error e u := by
  obtain ⟨pre, a, post, t, rfl, hpre, hx⟩ := forM_error h
  rw [forM_const x (List.length_range (n := pre.length)).symm] at hpre
  exact ⟨pre.length, t, hpre, hx⟩

theorem drawTags_ok (items : List (ℤ × Node)) (tags : ℤ → ℤ) (k : Controller) :
    Returns (drawTags items tags) k fun _ _ => True := by
  induction items generalizing tags k with
  | nil => exact returns_pure trivial
  | cons e items ih =>
    have hdraw : Returns randomNewPos k fun _ _ => True := ⟨_, _, rfl, trivial⟩
    apply hdraw.bind
    intro tag k' _
    apply (ih _ k').bind
    exact fun _ _ _ => returns_pure trivial

theorem retagCache_ok (c : Client) : Returns retagCache c fun _ _ => True := by
  apply returns_get.bind
  intro _ c hget
  obtain ⟨rfl, rfl⟩ := hget
  have hupdate : Returns (updatePos c.cache c.rootId) c.controller fun _ _ => True :=
    (drawTags_ok _ _ _).bind fun _ _ _ => returns_pure trivial
  apply (onController_returns hupdate).bind
  intro r _ _
  exact returns_modify.imp fun _ _ _ => trivial

theorem stopped_of_error (h : (w.run codec fuel).run c = .error (.access e) u) :
    ∃ moment s, Stopped codec fuel w c moment s u := by
  rcases bind_error h with hstart | ⟨_, c₁, hstart, h⟩
  · cases hstart
  rcases bind_error h with hact | ⟨_, c₂, hact, h⟩
  · obtain ⟨pre, a, post, t, hl, hpre, ha⟩ := forM_error hact
    exact ⟨.acting pre, t, .action hl ((run_bind_ok hstart).trans hpre) ha⟩
  have hbegun : (begun codec fuel w.actions).run c = .ok ⟨⟩ c₂ := (run_bind_ok hstart).trans hact
  rcases bind_error h with hget | ⟨_, _, hget, h⟩
  · cases hget
  cases hget
  rcases bind_error h with hfinal | ⟨_, c₃, hfinal, h⟩
  · obtain ⟨_, c₃, htag, _⟩ := retagCache_ok c₂
    have hfinal := (run_bind_ok htag).symm.trans hfinal
    rcases bind_error hfinal with hget | ⟨_, _, hget, hfinal⟩
    · cases hget
    cases hget
    rcases bind_error hfinal with hreads | ⟨_, c₄, hreads, hfinal⟩
    · obtain ⟨k, t, hk, hx⟩ := forM_const_error hreads
      have hrun : (retagged codec fuel w k).run c = .ok ⟨⟩ t :=
        (run_bind_ok hbegun).trans ((run_bind_ok htag).trans hk)
      exact ⟨_, t, .dummyRead hrun hx⟩
    have hretagged : (retagged codec fuel w _).run c = .ok ⟨⟩ c₄ :=
      (run_bind_ok hbegun).trans ((run_bind_ok htag).trans hreads)
    rcases bind_error hfinal with hevict | ⟨_, c₅, hevict, hfinal⟩
    · rcases bind_error hevict with hget | ⟨_, _, hget, hevict⟩
      · cases hget
      cases hget
      obtain ⟨k, t, hk, hx⟩ := forM_const_error hevict
      exact ⟨_, t, .eviction hretagged hk hx⟩
    rcases bind_error hfinal with hget | ⟨_, _, hget, hfinal⟩
    · cases hget
    cases hget
    rcases bind_error hfinal with hwrites | ⟨_, c₆, hwrites, hfinal⟩
    · obtain ⟨k, t, hk, hx⟩ := forM_const_error hwrites
      have hrun : (padded codec fuel w _ k).run c = .ok ⟨⟩ t :=
        (run_bind_ok hretagged).trans ((run_bind_ok hevict).trans hk)
      exact ⟨_, t, .dummyWrite hrun hx⟩
    · cases hfinal
  · rcases bind_error h with hget | ⟨_, _, hget, h⟩
    · cases hget
    · cases h

theorem run_stops_reading {err : ClientError} (hpre : (retagged codec fuel w 0).run c = .ok ⟨⟩ s)
    (hrounds : ∀ count, 0 < dummyRounds (w.pad count) s.readCount)
    (hread : dummyRead.run s = .error err u) : (w.run codec fuel).run c = .error err u := by
  obtain ⟨_, c₂, hbegun, hpre⟩ := bind_ok hpre
  obtain ⟨_, c₁, hstart, hact⟩ := bind_ok hbegun
  obtain ⟨_, c₃, htag, hnone⟩ := bind_ok hpre
  cases hnone
  obtain ⟨rounds, hsucc⟩ := Nat.exists_eq_succ_of_ne_zero (hrounds c₂.nodeCount).ne'
  have hloop : ((List.range (dummyRounds (w.pad c₂.nodeCount) s.readCount)).forM
      fun _ => dummyRead).run s = .error err u := by
    rw [hsucc, List.range_succ_eq_map]
    exact run_bind_error hread
  have hfinal : (odsFinalize codec (w.pad c₂.nodeCount)).run c₂ = .error err u :=
    (run_bind_ok htag).trans ((run_bind_ok (run_get s)).trans (run_bind_error hloop))
  exact (run_bind_ok hstart).trans ((run_bind_ok hact).trans
    ((run_bind_ok (run_get c₂)).trans (run_bind_error hfinal)))

/-- A client outside a session, which holds the nodes `V`: those of the tree of `done`. -/
def Ready (codec : Codec Node) (done : List Node) (c : Client) (V : ℤ → Option Node) : Prop :=
  Open codec V done { c with cache := c.cache.clear } V

structure Holding (done : List Node) (V : ℤ → Option Node) : Prop where
  carries : Carries V (fun _ => False) (treeOf done)
  support : ∀ i, V i ≠ none → i ∈ ids (treeOf done)
  valid : ∀ i n, V i = some n → Valid i n

variable {V V' : ℤ → Option Node} {done : List Node} {m : ℤ → Option Str} {k : Controller}

theorem Ready.memory (h : Ready codec done c V) : ∃ m, Serves c.controller m ∧
    ∀ i, 0 < i → Stored codec c.secretKey (V i) (m i) := by
  obtain ⟨m, hserves, hstored⟩ := h.shows'.memory
  exact ⟨m, hserves, fun i hi => hstored i hi rfl⟩

theorem mendClient_eq (h : Serves c.controller m) : mendClient c = c := by
  have hfails : c.controller.oram.storage.fails = fun _ => false := funext h.reliable
  rw [mendClient, mendController, mend, ← hfails]

theorem begun_tracks (actions : List Action) :
    ClientTracks f Acts (fun _ _ => True) (begun codec fuel actions) := by
  have hstart : ClientTracks f Acts (fun _ _ => True) odsStart :=
    odsStart_reads.imp (fun _ _ h => ⟨h.root.setup, h.remembers⟩) fun _ _ _ => trivial
  have hactions : ∀ a : Action, ClientTracks f Acts (fun _ _ => True) (a.run codec fuel) :=
    fun a => (action_tracks codec fuel a).imp (fun _ _ h => h) fun _ _ _ => trivial
  apply hstart.bind acts_closed
  exact fun _ => tracks_forM acts_closed hactions actions

theorem begun_left {actions : List Action} (h : Ready codec done c V)
    (hins : Insertable (done ++ actions.flatMap Action.nodes))
    (hf : (done ++ actions.flatMap Action.nodes).length < fuel)
    (hrun : (begun codec fuel actions).run (faultyClient f c) = .ok ⟨⟩ s) :
    ∃ t V', s = faultyClient f t ∧
      Open codec V (done ++ actions.flatMap Action.nodes) (mendClient t) V' ∧ Acts c t := by
  have hreturns : Returns (begun codec fuel actions) (mendClient c) fun _ c' =>
      ∃ V', Open codec V (done ++ actions.flatMap Action.nodes) c' V' := by
    obtain ⟨m, hs, _⟩ := h.memory
    rw [mendClient_eq hs]
    apply returns_modify.bind
    intro _ c₁ hc
    subst hc
    exact actions_returns h hins hf
  obtain ⟨t, ht, ⟨V', hopen⟩, hacts⟩ := (begun_tracks actions).returns hreturns hrun
  exact ⟨t, V', ht, hopen, hacts⟩

theorem carries_loose {P : ℤ → Prop} {t : BinaryTree Entry} (h : Carries V P t) :
    Carries V (fun _ => False) t := by
  induction t with
  | nil => trivial
  | node e l r hl hr =>
    obtain ⟨hnode, _, hcl, hcr⟩ := h
    exact ⟨hnode, fun _ _ hfalse => hfalse.elim, hl hcl, hr hcr⟩

theorem holding_settled {V₀ : ℤ → Option Node} (h : Open codec V₀ done c V) (tags : ℤ → ℤ)
    (hvalid : ∀ i n, settled tags c V i = some n → Valid i n) :
    Holding done (settled tags c V) := by
  refine ⟨?_, ?_, hvalid⟩
  · have hnone : ∀ i, ¬ Cached { c with cache := c.cache.clear } i := by
      intro i
      simp [Cached, find?_eq_none, Cache.clear]
    exact carries_loose (carries_settled tags h.carries hnone)
  · intro i hi
    apply h.support i
    intro hV
    simp [settled, hV] at hi

/-- A client in the end of a session, which started from `c`. -/
structure Ending (codec : Codec Node) (done : List Node) (c : Client) (V : ℤ → Option Node)
    (t : Client) : Prop where
  shows' : Shows codec (mendClient t) V
  holding : Holding done V
  rootId : t.rootId = rootOf (treeOf done)
  setup : SameSetup c t

theorem Ending.step {t t' : Client} (h : Ending codec done c V t)
    (hs : Shows codec (mendClient t') V) (hr : SameRoot t t') : Ending codec done c V t' :=
  ⟨hs, h.holding, hr.rootId.trans h.rootId, hr.setup.secretKey.trans h.setup.secretKey,
    hr.setup.maxSize.trans h.setup.maxSize⟩

theorem retagged_left {reads : ℕ} (h : Ready codec done c V)
    (hins : Insertable (done ++ w.nodes)) (hf : (done ++ w.nodes).length < fuel)
    (hrun : (retagged codec fuel w reads).run (faultyClient f c) = .ok ⟨⟩ s) :
    ∃ t V', s = faultyClient f t ∧ Ending codec (done ++ w.nodes) c V' t ∧
      Remembers c.controller t.controller := by
  obtain ⟨_, s₁, hbegun, hrun⟩ := bind_ok hrun
  obtain ⟨t₁, V₁, rfl, hopen, hacts⟩ := begun_left h hins hf hbegun
  obtain ⟨_, s₂, htag, hrun⟩ := bind_ok hrun
  obtain ⟨t₂, rfl, ⟨tags, k, _, _, hshows, ht₂⟩, hremembers⟩ :=
    retagCache_tracks.returns (retagCache_returns hopen.shows') htag
  obtain ⟨t₃, rfl, ⟨hshows₃, _⟩, hreads⟩ :=
    (tracks_forM reads_closed (fun _ => dummyRead_reads) _).returns
      (dummies_returns (fun _ => dummyRead_returns) hshows _) hrun
  have htagged : SameRoot t₁ t₂ :=
    ⟨⟨congrArg (fun c => c.secretKey) ht₂, congrArg (fun c => c.cache.maxSize) ht₂⟩,
      congrArg (fun c => c.rootId) ht₂⟩
  have hroot := htagged.trans hreads.root
  refine ⟨t₃, _, rfl, ⟨hshows₃, ?_, ?_, ?_, ?_⟩, ?_⟩
  · exact holding_settled hopen tags hshows.valid
  · exact hroot.rootId.trans hopen.rootId
  · exact hroot.setup.secretKey.trans hacts.setup.secretKey
  · exact hroot.setup.maxSize.trans hacts.setup.maxSize
  · exact fun m hm => hreads.remembers m (hremembers m (hacts.remembers m hm))

/-- Evictions write the nodes that the cache lists first. -/
theorem evictions_left {l : List ℕ} {t : Client} (h : Ending codec done c V t)
    (hm : Holds t.controller.oram m)
    (hrun : (l.forM fun _ => evictNode codec).run (faultyClient f t) = .ok ⟨⟩ s) :
    ∃ t' m', s = faultyClient f t' ∧ Ending codec done c V t' ∧ Holds t'.controller.oram m' ∧
      ∀ i, if i ∈ (t.cache.cacheItems.take l.length).map Prod.fst
        then Stored codec c.secretKey (V i) (m' i) else m' i = m i := by
  induction l generalizing t m with
  | nil =>
    cases hrun
    refine ⟨t, m, rfl, h, hm, ?_⟩
    intro i
    rw [if_neg (by simp)]
  | cons a l ih =>
    obtain ⟨_, s₁, hfirst, hrest⟩ := bind_ok hrun
    cases hitems : t.cache.cacheItems with
    | nil =>
      have hthrows : (evictNode codec).run (faultyClient f t) =
          .error .undefinedBehaviour (faultyClient f t) := by
        refine (run_bind_ok (run_get _)).trans ?_
        have hempty : (faultyClient f t).cache.cacheItems = [] := hitems
        rw [hempty]
        rfl
      cases hthrows.symm.trans hfirst
    | cons e rest =>
      obtain ⟨i, n⟩ := e
      have hserves : Serves (mendClient t).controller m := ⟨fun _ => rfl, holds_mend.mpr hm⟩
      have hevict := (evictNode_returns h.shows' hitems).and
        (evictNode_writes h.shows' hserves hitems)
      obtain ⟨t₁, rfl, ⟨⟨hshows, _⟩, b, k, hb, hk, _, ht₁⟩, hroot⟩ :=
        (evictNode_tracks codec).returns hevict hfirst
      have hholds : Holds t₁.controller.oram (Function.update m i (some b)) := by
        have horam : mend t₁.controller.oram = k.oram :=
          congrArg (fun c => c.controller.oram) ht₁
        apply holds_mend.mp
        rw [horam]
        exact hk.holds
      have hcache : t₁.cache.cacheItems = rest := by
        have hpop : t₁.cache.cacheItems = t.cache.cacheItems.tail :=
          congrArg (fun c => c.cache.cacheItems) ht₁
        rw [hpop, hitems, List.tail_cons]
      obtain ⟨t', m', rfl, hending, hm', hwritten⟩ := ih (h.step hshows hroot) hholds hrest
      refine ⟨t', m', rfl, hending, hm', ?_⟩
      intro j
      have hj := hwritten j
      rw [hcache] at hj
      rw [List.length_cons, List.take_succ_cons, List.map_cons]
      by_cases hlater : j ∈ (rest.take l.length).map Prod.fst
      · rw [if_pos hlater] at hj
        rw [if_pos (List.mem_cons_of_mem _ hlater)]
        exact hj
      rw [if_neg hlater] at hj
      by_cases hij : j = i
      · subst hij
        rw [if_pos List.mem_cons_self, hj, Function.update_self]
        have hkey : (mendClient t).secretKey = c.secretKey := h.setup.secretKey
        exact hkey ▸ hb
      · rw [if_neg (List.not_mem_cons_of_ne_of_not_mem hij hlater), hj,
          Function.update_of_ne hij]

theorem evictCache_tracks : ClientTracks f SameRoot SameRoot (evictCache codec) := by
  apply tracks_get
  · exact fun _ => rfl
  · exact fun _ => tracks_forM root_closed (fun _ => evictNode_tracks codec) _

/-- When a session only pads, all its nodes are stored. -/
theorem padded_left {reads writes : ℕ} (h : Ready codec done c V)
    (hins : Insertable (done ++ w.nodes)) (hf : (done ++ w.nodes).length < fuel)
    (hrun : (padded codec fuel w reads writes).run (faultyClient f c) = .ok ⟨⟩ s) :
    ∃ t V', s = faultyClient f t ∧ Ending codec (done ++ w.nodes) c V' t ∧
      ∃ m', Holds t.controller.oram m' ∧ ∀ i, 0 < i → Stored codec c.secretKey (V' i) (m' i) := by
  obtain ⟨_, s₁, hretagged, hrun⟩ := bind_ok hrun
  obtain ⟨t₁, V', rfl, hending, _⟩ := retagged_left h hins hf hretagged
  obtain ⟨_, s₂, hevict, hrun⟩ := bind_ok hrun
  obtain ⟨t₂, rfl, ⟨hshows₂, hempty, _⟩, hroot₂⟩ :=
    evictCache_tracks.returns (evictCache_returns hending.shows') hevict
  obtain ⟨t₃, rfl, ⟨hshows₃, k, _, ht₃⟩, hroot₃⟩ :=
    (tracks_forM root_closed (fun _ => dummyWrite_tracks codec) _).returns
      (dummies_returns (fun _ => dummyWrite_returns) hshows₂ _) hrun
  have hending₃ := (hending.step hshows₂ hroot₂).step hshows₃ hroot₃
  refine ⟨t₃, V', rfl, hending₃, ?_⟩
  obtain ⟨m', hserves, hstored⟩ := hshows₃.memory
  refine ⟨m', holds_mend.mp hserves.holds, ?_⟩
  intro i hi
  have hcache : t₃.cache.cacheItems = [] :=
    (congrArg (fun c => c.cache.cacheItems) ht₃).trans hempty
  have hnone : (mendClient t₃).cache.find? i = none := by
    apply find?_eq_none.mpr
    change i ∉ t₃.cache.cacheItems.map Prod.fst
    rw [hcache]
    exact List.not_mem_nil
  have hkey : (mendClient t₃).secretKey = c.secretKey := hending₃.setup.secretKey
  exact hkey ▸ hstored i hi hnone

/-- A client that threw in the state `u`, in a step that began when the memory held the nodes
`V`. -/
structure Left (codec : Codec Node) (c s u : Client) (V : ℤ → Option Node) (root : ℤ) : Prop where
  memory : ∃ m, Holds s.controller.oram m ∧ ∀ i, 0 < i → Stored codec c.secretKey (V i) (m i)
  setup : SameSetup c u
  rootId : u.rootId = root

def updated {α : Type} (ids : List ℤ) (old new : ℤ → α) : ℤ → α := fun i =>
  if i ∈ ids then new i else old i

theorem left_of_unwritten {t : Client} {root : ℤ} (h : Ready codec done c V) (hr : t.rootId = root)
    (hsetup : SameSetup c t) (hremembers : Remembers c.controller t.controller)
    (hu : SameRoot t u) : Left codec c (faultyClient f t) u V root := by
  obtain ⟨m, hserves, hstored⟩ := h.memory
  have hholds := holds_faulty (f := f).mpr (hremembers m hserves.holds)
  have hsame : SameSetup c u := ⟨hu.setup.secretKey.trans hsetup.secretKey,
    hu.setup.maxSize.trans hsetup.maxSize⟩
  exact ⟨⟨m, hholds, hstored⟩, hsame, hu.rootId.trans hr⟩

theorem Ending.left {t : Client} {V₁ : ℤ → Option Node} (h : Ending codec done c V t)
    (hu : SameRoot t u) (hm : Holds t.controller.oram m)
    (hstored : ∀ i, 0 < i → Stored codec c.secretKey (V₁ i) (m i)) :
    Left codec c (faultyClient f t) u V₁ (rootOf (treeOf done)) := by
  have hsame : SameSetup c u := ⟨hu.setup.secretKey.trans h.setup.secretKey,
    hu.setup.maxSize.trans h.setup.maxSize⟩
  exact ⟨⟨m, holds_faulty.mpr hm, hstored⟩, hsame, hu.rootId.trans h.rootId⟩

section Stops

variable (h : Ready codec done c V) (hins : Insertable (done ++ w.nodes))
  (hf : (done ++ w.nodes).length < fuel)
include h hins hf

theorem acting_left {completed : List Action}
    (hstop : Stopped codec fuel w (faultyClient f c) (.acting completed) s u) :
    Left codec c s u V (rootOf (treeOf (done ++ completed.flatMap Action.nodes))) := by
  have hsub := hstop.sublist done
  cases hstop with
  | @action _ _ a _ _ _ _ hbegun herror =>
    obtain ⟨t, V', rfl, hopen, hacts⟩ := begun_left h (hins.sub hsub)
      (hsub.length_le.trans_lt hf) hbegun
    exact left_of_unwritten h hopen.rootId hacts.setup hacts.remembers
      ((action_tracks codec fuel a).of_error herror)
  | dummyRead hretagged herror =>
    obtain ⟨t, V', rfl, hending, hremembers⟩ := retagged_left h hins hf hretagged
    exact left_of_unwritten h hending.rootId hending.setup hremembers
      (dummyRead_reads.of_error herror)

theorem evicting_left {written : List ℤ}
    (hstop : Stopped codec fuel w (faultyClient f c) (.evicting written) s u) :
    ∃ V', Holding (done ++ w.nodes) V' ∧
      Left codec c s u (updated written V V') (rootOf (treeOf (done ++ w.nodes))) := by
  obtain ⟨m, hserves, hstored⟩ := h.memory
  cases hstop with
  | @eviction _ count _ _ _ _ hretagged hevictions herror =>
    obtain ⟨t, V', rfl, hending, hremembers⟩ := retagged_left h hins hf hretagged
    obtain ⟨t', m', rfl, hending', hholds, hwritten⟩ :=
      evictions_left hending (hremembers m hserves.holds) hevictions
    refine ⟨V', hending.holding, ?_⟩
    apply hending'.left ((evictNode_tracks codec).of_error herror) hholds
    intro i hi
    have hstep := hwritten i
    rw [List.length_range] at hstep
    by_cases hmem : i ∈ (t.cache.cacheItems.take count).map Prod.fst
    · rw [if_pos hmem] at hstep
      rw [updated, if_pos (show i ∈ ((faultyClient f t).cache.cacheItems.take count).map Prod.fst
        from hmem)]
      exact hstep
    · rw [if_neg hmem] at hstep
      rw [updated, if_neg (show i ∉ ((faultyClient f t).cache.cacheItems.take count).map Prod.fst
        from hmem), hstep]
      exact hstored i hi

theorem evicted_left (hstop : Stopped codec fuel w (faultyClient f c) .evicted s u) :
    ∃ V', Holding (done ++ w.nodes) V' ∧
      Left codec c s u V' (rootOf (treeOf (done ++ w.nodes))) := by
  cases hstop with
  | dummyWrite hpadded herror =>
    obtain ⟨t, V', rfl, hending, m', hholds, hstored⟩ := padded_left h hins hf hpadded
    exact ⟨V', hending.holding,
      hending.left ((dummyWrite_tracks codec).of_error herror) hholds hstored⟩

end Stops

end StoppedSession
