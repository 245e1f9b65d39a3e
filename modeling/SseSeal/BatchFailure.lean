import SseSeal.StoredLinks

/-! Batches of insertions that a storage failure ends. The client then searches from the last
root it recorded, along the links that were stored when the batch stopped. -/
namespace BatchFailure

open Bytes Objects StateExcept AvlTree BinaryTree OramReadPathEviction OramMemory
open OramAccessController ClientCache OdictClient ClientSession ClientTree Dictionary
open PositionTags StorageFaults InterruptedSession StoppedSession LinkedSearch StoredLinks

/-- The server works again, with the memory that a step which threw began with; the client goes
on from the state `u` that the exception left. -/
def Recovered (s u c' : Client) : Prop :=
  ∃ m, Holds s.controller.oram m ∧ Serves c'.controller m ∧
    c' = u.withController c'.controller

def rootAt (done : List Node) (w : Session) : Moment → ℤ
  | .acting completed => rootOf (treeOf (done ++ completed.flatMap Action.nodes))
  | .evicting _ | .evicted => rootOf (treeOf (done ++ w.nodes))

/-- The links that are stored when a session stops at a moment: the new ones of the nodes that
it wrote, and the old ones of the others. -/
def linksAt (done : List Node) (w : Session) : Moment → ℤ → Option NodeLink
  | .acting _ => linksOf (treeOf done)
  | .evicting written =>
    updated written (linksOf (treeOf done)) (linksOf (treeOf (done ++ w.nodes)))
  | .evicted => linksOf (treeOf (done ++ w.nodes))

/-- A search from the root meets the key. -/
def Survives (done : List Node) (w : Session) (moment : Moment) (key : Str) : Prop :=
  Meets (linksAt done w moment) key (rootAt done w moment)

/-- A session that stopped where the tree of `done'` is stored. -/
def Spared (done : List Node) (w : Session) (moment : Moment) (done' : List Node) : Prop :=
  linksAt done w moment = linksOf (treeOf done') ∧ rootAt done w moment = rootOf (treeOf done')

/-- The clients whose dictionary holds the nodes `done`, after sessions that were completed and
others that stopped without damage. -/
inductive Reached (codec : Codec Node) (fuel : ℕ) : List Node → Client → Prop where
  | fresh {bucketSize blockNumber : ℕ} {storage : Storage} {randGen : RandomForOram} {o : Oram}
      {order : HashOrder} {secretKey : Str} {c : Client} : (∀ k, storage.fails k = false) →
      construct.run (blank bucketSize blockNumber storage randGen) = .ok ⟨⟩ o →
      16 ≤ secretKey.length →
      (initDummyData codec).run (Client.fresh secretKey order o) = .ok ⟨⟩ c →
      Reached codec fuel [] c
  | session {done : List Node} {w : Session} {c c' : Client} {ends : Client × Client} :
      Reached codec fuel done c → Insertable (done ++ w.nodes) →
      (done ++ w.nodes).length < fuel → (w.run codec fuel).run c = .ok ends c' →
      Reached codec fuel (done ++ w.nodes) c'
  | interrupted {done done' : List Node} {w : Session} {f : ℕ → Bool} {moment : Moment}
      {c s u c' : Client} :
      Reached codec fuel done c → Insertable (done ++ w.nodes) →
      (done ++ w.nodes).length < fuel → Stopped codec fuel w (faultyClient f c) moment s u →
      Recovered s u c' → Spared done w moment done' → Reached codec fuel done' c'

variable {codec : Codec Node} {fuel : ℕ} {f : ℕ → Bool} {w : Session} {c c' s u : Client}
  {V : ℤ → Option Node} {done done' nodes : List Node} {moment : Moment} {key : Str} {e : Entry}
  {links : ℤ → Option NodeLink} {root i : ℤ} {b : NodeLink}

structure Standing (codec : Codec Node) (links : ℤ → Option NodeLink) (root : ℤ) (c : Client)
    (V : ℤ → Option Node) : Prop where
  shows' : Shows codec { c with cache := c.cache.clear } V
  stores : Stores V links
  rootId : c.rootId = root

theorem find_walks {path : List ℤ} (h : Standing codec links root c V)
    (hw : Walk links key root path e) (hf : path.length < fuel) (pad : ℤ → ℤ) :
    Returns (OdictClient.find codec fuel pad key) c fun r c' =>
      (∃ n, r = some n ∧ entryOf n = e) ∧ ∃ V', Standing codec links root c' V' := by
  obtain ⟨hshows, hstores, rfl⟩ := h
  apply returns_modify.bind
  intro _ c₁ hc₁
  subst hc₁
  apply returns_get.bind
  intro _ c₁ hget
  obtain ⟨rfl, rfl⟩ := hget
  apply (findPriv_walks hshows hstores hw hf).bind
  intro r c₂ hfound
  obtain ⟨hr, hshows₂, hsame⟩ := hfound
  apply returns_get.bind
  intro _ c₂ hget
  obtain ⟨rfl, rfl⟩ := hget
  apply (odsFinalize_returns hshows₂ _).bind
  intro _ c₃ hfinal
  obtain ⟨tags, hfinal⟩ := hfinal
  have hstands : Standing codec links c.rootId c₃ (settled tags _ V) :=
    ⟨hfinal.shows'.clear hfinal.nothing_cached, hstores.settled tags _,
      hfinal.rootId.trans hsame⟩
  exact returns_pure ⟨hr, _, hstands⟩

theorem finds_walk {keys : List Str} {R : Str → Option Node → Prop}
    (h : Standing codec links root c V)
    (hw : ∀ key ∈ keys, ∃ path e, Walk links key root path e ∧ path.length < fuel ∧
      ∀ n, entryOf n = e → R key (some n)) (insertPad findPad : ℤ → ℤ) :
    Returns (runRequests codec fuel insertPad findPad (keys.map .find)) c fun answers _ =>
      List.Forall₂ R keys answers := by
  induction keys generalizing c V with
  | nil => exact returns_pure .nil
  | cons key keys ih =>
    obtain ⟨path, e, hwalk, hlen, hanswer⟩ := hw key List.mem_cons_self
    apply (find_walks h hwalk hlen findPad).bind
    intro answer c₁ hfound
    obtain ⟨⟨n, rfl, hn⟩, V₁, h₁⟩ := hfound
    apply (ih h₁ fun key hkey => hw key (List.mem_cons_of_mem _ hkey)).bind
    intro answers c₂ hall
    exact returns_pure (.cons (hanswer n hn) hall)

theorem find_meets (h : Standing codec links root c V) (hempty : codec.deserialize [] = none)
    (hrange : ∀ i b, links i = some b → InRange (b.next key)) (hr : InRange root)
    {pad : ℤ → ℤ} {n : Node}
    (hrun : (OdictClient.find codec fuel pad key).run c = .ok (some n) c') :
    Meets links key root := by
  obtain ⟨hshows, hstores, rfl⟩ := h
  have hends : Ends (OdictClient.find codec fuel pad key) c
      (fun r _ => r ≠ none → Meets links key c.rootId) fun _ _ => True := by
    apply returns_modify.ends.bind
    intro _ c₁ hc₁
    subst hc₁
    apply returns_get.ends.bind
    intro _ c₁ hget
    obtain ⟨rfl, rfl⟩ := hget
    apply (findPriv_meets hshows hstores hempty hrange hr).bind
    intro r c₂ hfound
    apply returns_get.ends.bind
    intro _ c₂ hget
    obtain ⟨rfl, rfl⟩ := hget
    apply (ends_any _ c₂).bind
    intro _ c₃ _
    exact ends_ok rfl hfound
  exact hends.post_of_ok hrun (Option.some_ne_none n)

theorem ready_stores (h : Ready codec done c V) (hins : Insertable done) :
    Stores V (linksOf (treeOf done)) :=
  stores_tree h.carries (nodup_treeOf hins.distinct) h.support

theorem holding_stores (h : Holding done V) (hins : Insertable done) :
    Stores V (linksOf (treeOf done)) :=
  stores_tree h.carries (nodup_treeOf hins.distinct) h.support

theorem ready_standing (h : Ready codec done c V) (hins : Insertable done) :
    Standing codec (linksOf (treeOf done)) (rootOf (treeOf done)) c V :=
  ⟨h.shows', ready_stores h hins, h.rootId⟩

theorem standing_ready
    (h : Standing codec (linksOf (treeOf done)) (rootOf (treeOf done)) c V)
    (hins : Insertable done) : Ready codec done c V := by
  have hnone : ∀ i, ¬ Cached { c with cache := c.cache.clear } i := fun i hi => hi rfl
  have hcarries := carries_of_links (nodup_treeOf hins.distinct) (fun i _ => h.stores i) hnone
  refine ⟨h.shows', hcarries, h.rootId, ?_, fun _ _ => rfl⟩
  intro i hi
  by_contra hmem
  have hlink := h.stores i
  rw [linksOf_none hmem] at hlink
  exact hi (Option.map_eq_none_iff.mp hlink)

theorem idle_ready (h : Idle codec done c V) : Ready codec done c V := by
  obtain ⟨_, _, _, rfl, _, hopen⟩ := odsStart_returns h
  exact hopen

theorem stopped_links (h : Ready codec done c V) (hins : Insertable (done ++ w.nodes))
    (hf : (done ++ w.nodes).length < fuel)
    (hstop : Stopped codec fuel w (faultyClient f c) moment s u) :
    ∃ V', Left codec c s u V' (rootAt done w moment) ∧ Stores V' (linksAt done w moment) ∧
      ∀ i n, V' i = some n → Valid i n := by
  have hold := ready_stores h (hins.sub (List.sublist_append_left _ _))
  cases moment with
  | acting completed => exact ⟨V, acting_left h hins hf hstop, hold, h.shows'.valid⟩
  | evicting written =>
    obtain ⟨V', hholding, hleft⟩ := evicting_left h hins hf hstop
    refine ⟨updated written V V', hleft, hold.updated (holding_stores hholding hins) written, ?_⟩
    intro i n hn
    rw [updated] at hn
    split at hn
    · exact hholding.valid i n hn
    · exact h.shows'.valid i n hn
  | evicted =>
    obtain ⟨V', hholding, hleft⟩ := evicted_left h hins hf hstop
    exact ⟨V', hleft, holding_stores hholding hins, hholding.valid⟩

theorem recovered_standing {V' : ℤ → Option Node} (h : Ready codec done c V)
    (hleft : Left codec c s u V' root) (hstores : Stores V' links)
    (hvalid : ∀ i n, V' i = some n → Valid i n) (hrec : Recovered s u c') :
    Standing codec links root c' V' := by
  obtain ⟨m, hm, hserves, hc'⟩ := hrec
  obtain ⟨m', hm', hstored⟩ := hleft.memory
  rcases holds_unique hm hm'
  have hkey : c'.secretKey = c.secretKey := by
    rw [hc']
    exact hleft.setup.secretKey
  have hmax : c'.cache.maxSize = c.cache.maxSize := by
    rw [hc']
    exact hleft.setup.maxSize
  have hroot : c'.rootId = root := by
    rw [hc']
    exact hleft.rootId
  refine ⟨⟨⟨m, hserves, ?_⟩, ?_, ?_, ?_, hvalid⟩, hstores, hroot⟩
  · intro i hi _
    exact hkey.symm ▸ hstored i hi
  · exact ⟨hmax.trans h.shows'.cache.maxSize_eq, List.nodup_nil,
      fun _ he => absurd he List.not_mem_nil, fun _ he => absurd he List.not_mem_nil⟩
  · intro i n hn
    cases hn
  · exact hkey.symm ▸ h.shows'.keyLength

theorem session_ready (h : Ready codec done c V) (hins : Insertable (done ++ w.nodes))
    (hf : (done ++ w.nodes).length < fuel) :
    Returns (w.run codec fuel) c fun _ c' => ∃ V', Ready codec (done ++ w.nodes) c' V' := by
  apply returns_modify.bind
  intro _ c₁ hc₁
  subst hc₁
  apply (actions_returns h hins hf).bind
  intro _ c₂ hopen
  obtain ⟨V₂, hopen⟩ := hopen
  apply returns_get.bind
  intro _ c₂ hget
  obtain ⟨rfl, rfl⟩ := hget
  apply (finish_returns hopen _).bind
  intro _ c₃ hfinal
  obtain ⟨tags, _, hidle⟩ := hfinal
  apply returns_get.bind
  intro _ c₃ hget
  obtain ⟨rfl, rfl⟩ := hget
  exact returns_pure ⟨_, idle_ready hidle⟩

theorem reached_ready (h : Reached codec fuel done c) (hins : Insertable done) :
    ∃ V, Ready codec done c V := by
  induction h with
  | @fresh _ _ _ _ _ order _ _ hs hbuild hkey hrun =>
    obtain ⟨_, _, hrun', ⟨V, hidle⟩, _⟩ := fresh_idle hs hbuild order hkey
    cases hrun.symm.trans hrun'
    exact ⟨V, idle_ready hidle⟩
  | session _ hall hf hrun ih =>
    obtain ⟨V, hready⟩ := ih (hall.sub (List.sublist_append_left _ _))
    obtain ⟨_, _, hrun', hready'⟩ := session_ready hready hall hf
    cases hrun.symm.trans hrun'
    exact hready'
  | interrupted _ hall hf hstop hrec hspared ih =>
    obtain ⟨V, hready⟩ := ih (hall.sub (List.sublist_append_left _ _))
    obtain ⟨V', hleft, hstores, hvalid⟩ := stopped_links hready hall hf hstop
    have hstands := recovered_standing hready hleft hstores hvalid hrec
    rw [hspared.1, hspared.2] at hstands
    exact ⟨V', standing_ready hstands hins⟩

def batch (nodes : List Node) (pad : ℤ → ℤ) : Session := ⟨nodes.map .insert, pad⟩

theorem batch_nodes (nodes : List Node) (pad : ℤ → ℤ) : (batch nodes pad).nodes = nodes := by
  induction nodes with
  | nil => rfl
  | cons n nodes ih => exact congrArg (List.cons n) ih

/-- A search for the key returns what it returns in the state `c`. -/
def SameAnswer (codec : Codec Node) (fuel : ℕ) (pad : ℤ → ℤ) (c : Client) (key : Str)
    (answer : Option Node) : Prop :=
  ∃ n n₀ c₀, answer = some n ∧ (OdictClient.find codec fuel pad key).run c = .ok (some n₀) c₀ ∧
    entryOf n = entryOf n₀

theorem inRange_of_mem (hins : Insertable nodes) (h : i = 0 ∨ i ∈ ids (treeOf nodes)) :
    InRange i := by
  apply h.imp_right
  intro hmem
  obtain ⟨n, hn, rfl⟩ := List.mem_map.mp (mem_ids_treeOf hmem)
  exact hins.range n hn

theorem rootAt_inRange (hins : Insertable (done ++ w.nodes))
    (h : Stopped codec fuel w c moment s u) : InRange (rootAt done w moment) := by
  cases moment with
  | acting completed => exact inRange_of_mem (hins.sub (h.sublist done)) (rootOf_cases _)
  | evicting written => exact inRange_of_mem hins (rootOf_cases _)
  | evicted => exact inRange_of_mem hins (rootOf_cases _)

/-- The links that are stored come from the tree before the session or from the one after it. -/
theorem linksAt_some (h : linksAt done w moment i = some b) :
    linksOf (treeOf done) i = some b ∨ linksOf (treeOf (done ++ w.nodes)) i = some b := by
  cases moment with
  | acting completed => exact Or.inl h
  | evicting written =>
    rw [linksAt, updated] at h
    split at h
    · exact Or.inr h
    · exact Or.inl h
  | evicted => exact Or.inr h

theorem linksAt_mem (h : linksAt done w moment i = some b) :
    i ∈ (done ++ w.nodes).map Node.id := by
  rcases linksAt_some h with hold | hnew
  · rw [List.map_append]
    exact List.mem_append_left _ (mem_ids_treeOf (linksOf_some hold).1)
  · exact mem_ids_treeOf (linksOf_some hnew).1

theorem linksAt_inRange (hins : Insertable (done ++ w.nodes))
    (h : linksAt done w moment i = some b) (key : Str) : InRange (b.next key) := by
  rcases linksAt_some h with hold | hnew
  · have hsub := hins.sub (List.sublist_append_left done w.nodes)
    exact inRange_of_mem hsub ((linksOf_some hold).2.2 key)
  · exact inRange_of_mem hins ((linksOf_some hnew).2.2 key)

theorem linksAt_entry {item : Item} (hkey : lookup b.entry.1 (treeOf done) = some item)
    (h : linksAt done w moment i = some b) : b.entry.2 = item := by
  have hlookup : ∀ {nodes}, linksOf (treeOf nodes) i = some b →
      lookup b.entry.1 (treeOf nodes) = some b.entry.2 := fun hb =>
    (lookup_eq_some (ordered_treeOf _)).mpr (linksOf_some hb).2.1
  rcases linksAt_some h with hold | hnew
  · exact Option.some.inj ((hlookup hold).symm.trans hkey)
  · exact Option.some.inj ((hlookup hnew).symm.trans (lookup_treeOf_append hkey w.nodes))

theorem Survives.walk {item : Item} (h : Survives done w moment key)
    (hkey : lookup key (treeOf done) = some item) : ∃ path,
      Walk (linksAt done w moment) key (rootAt done w moment) path (key, item) ∧
        path.length ≤ (done ++ w.nodes).length := by
  obtain ⟨path, e, hwalk⟩ := h
  obtain ⟨rfl, j, b, hb, rfl⟩ := hwalk.ends
  rw [← linksAt_entry hkey hb]
  have hlen := hwalk.length_le fun j b hb => linksAt_mem hb
  rw [List.length_map] at hlen
  exact ⟨path, hwalk, hlen⟩

theorem lookup_of_mem (h : key ∈ done.map Node.key) :
    ∃ item, lookup key (treeOf done) = some item := by
  obtain ⟨e, he, rfl⟩ := List.mem_map.mp ((BalancedDictionary.mem_keys_treeOf done key).mpr h)
  exact ⟨e.2, (lookup_eq_some (ordered_treeOf done)).mpr he⟩

theorem ready_find {item : Item} (h : Ready codec done c V) (hins : Insertable done)
    (hf : done.length < fuel) (pad : ℤ → ℤ) (hkey : lookup key (treeOf done) = some item) :
    ∃ n₀ c₀, (OdictClient.find codec fuel pad key).run c = .ok (some n₀) c₀ ∧
      entryOf n₀ = (key, item) := by
  have hwalk := walk_tree (nodup_treeOf hins.distinct) hkey
  have hlen := hwalk.length_le fun j b hb => mem_ids_treeOf (linksOf_some hb).1
  rw [List.length_map] at hlen
  obtain ⟨_, c₀, hrun, ⟨n₀, rfl, hn₀⟩, _⟩ :=
    find_walks (ready_standing h hins) hwalk (hlen.trans_lt hf) pad
  exact ⟨n₀, c₀, hrun, hn₀⟩

theorem survives_evicted (hins : Insertable (done ++ w.nodes)) (h : key ∈ done.map Node.key) :
    Survives done w .evicted key := by
  obtain ⟨item, hitem⟩ := lookup_of_mem h
  exact ⟨_, _, walk_tree (nodup_treeOf hins.distinct) (lookup_treeOf_append hitem w.nodes)⟩

/-- Before a node was written, the keys survive on whose path the last root lies. -/
theorem survives_acting (hins : Insertable done) (h : key ∈ done.map Node.key)
    (completed : List Action) : Survives done w (.acting completed) key ↔
      rootOf (treeOf (done ++ completed.flatMap Action.nodes)) ∈ visitedIds key (treeOf done) := by
  obtain ⟨item, hitem⟩ := lookup_of_mem h
  apply meets_tree (nodup_treeOf hins.distinct) (ordered_treeOf done) _ hitem
  intro hzero
  obtain ⟨n, hn, hid⟩ := List.mem_map.mp (mem_ids_treeOf hzero)
  exact absurd hid (hins.range n hn).1.ne'

def returned {α : Type} (x : ClientM α) (c : Client) : Option (α × Client) :=
  match x.run c with
  | .ok a c' => some (a, c')
  | .error _ _ => none

def thrown {α : Type} (x : ClientM α) (c : Client) : Option (ClientError × Client) :=
  match x.run c with
  | .ok _ _ => none
  | .error e c' => some (e, c')

theorem returned_eq {α : Type} {x : ClientM α} {a : α} (h : returned x c = some (a, c')) :
    x.run c = .ok a c' := by
  rw [returned] at h
  split at h
  · cases h
    assumption
  · cases h

theorem thrown_eq {α : Type} {x : ClientM α} {err : ClientError} (h : thrown x c = some (err, c')) :
    x.run c = .error err c' := by
  rw [thrown] at h
  split at h
  · cases h
  · cases h
    assumption

def firstNode : List Node := [.fresh 1 [97] []]

def risingNodes : List Node := [.fresh 2 [98] [], .fresh 3 [99] []]

def nextNode : List Node := [.fresh 2 [98] []]

/-- The storage call that throws: the first one after the insertions of the second batch. -/
def lateCall : ℕ → Bool := fun k => k = 23

/-- The reads that a second batch counts, and what its first dummy read throws. -/
def firstRead (nodes : List Node) : Option (ℤ × ClientError) := do
  let c ← clientAfter [batch firstNode fun _ => 0]
  let (_, s) ← returned (retagged ObjectArchive.nodeCodec 4 (batch nodes fun _ => 0) 0)
    (faultyClient lateCall c)
  let (err, _) ← thrown dummyRead s
  return (s.readCount, err)

theorem clientAfter_reached (h : clientAfter [w] = some c) (hins : Insertable w.nodes)
    (hlen : w.nodes.length < 4) : Reached ObjectArchive.nodeCodec 4 w.nodes c := by
  rw [clientAfter] at h
  split at h
  · cases h
  · rename_i o hbuild
    split at h
    · cases h
    · rename_i hrun
      cases h
      obtain ⟨_, c₀, hdummy, hrun⟩ := bind_ok hrun
      obtain ⟨ends, c₁, hrun, hrest⟩ := bind_ok hrun
      cases hrest
      exact Reached.session (.fresh (fun _ => rfl) hbuild sampleKey_length hdummy) hins hlen hrun

theorem recovered_mended (h : Ready codec done c V) (hins : Insertable (done ++ w.nodes))
    (hf : (done ++ w.nodes).length < fuel)
    (hstop : Stopped codec fuel w (faultyClient f c) moment s u) :
    Recovered s u (u.withController (mendController s.controller)) := by
  obtain ⟨V', hleft, _⟩ := stopped_links h hins hf hstop
  obtain ⟨m, hm, _⟩ := hleft.memory
  exact ⟨m, hm, ⟨fun _ => rfl, holds_mend.mpr hm⟩, rfl⟩

theorem firstNode_insertable : Insertable firstNode := ⟨by decide, by decide, by
  simp [firstNode, Node.fresh, StringCipher.Storable, StringCipher.blockBytes], by decide⟩

theorem second_batch_stops {reads : ℤ} (hreads : 0 ≤ reads)
    (h : firstRead nodes = some (reads, .access (.storage .rpc))) : ∃ c s u,
      Reached ObjectArchive.nodeCodec 4 firstNode c ∧
      (insertNodes ObjectArchive.nodeCodec 4 (fun _ => 0) nodes).run (faultyClient lateCall c) =
        .error (.access (.storage .rpc)) u ∧
      Stopped ObjectArchive.nodeCodec 4 (batch nodes fun _ => 0) (faultyClient lateCall c)
        (.acting (batch nodes fun _ => 0).actions) s u := by
  simp only [firstRead, Option.bind_eq_bind, Option.bind_eq_some_iff, Option.pure_def,
    Option.some.injEq, Prod.mk.injEq, Prod.exists] at h
  obtain ⟨c, hc, _, s, hs, err, u, hu, rfl, rfl⟩ := h
  have hnodes := batch_nodes firstNode fun _ => 0
  have hreached := clientAfter_reached hc (hnodes ▸ firstNode_insertable) (by rw [hnodes]; decide)
  rw [hnodes] at hreached
  have hread := thrown_eq hu
  have hstop := Stopped.dummyRead (returned_eq hs) hread
  have hrounds : ∀ count : ℤ, 0 < dummyRounds ((batch nodes fun _ => 0).pad count) s.readCount := by
    intro count
    rw [dummyRounds]
    omega
  have hrun := run_stops_reading (returned_eq hs) hrounds hread
  refine ⟨c, s, u, hreached, ?_, hstop⟩
  rw [insertNodes_eq_session]
  exact run_bind_error hrun

theorem risingNodes_insertable : Insertable (firstNode ++ risingNodes) := ⟨by decide, by decide, by
  simp [firstNode, risingNodes, Node.fresh, StringCipher.Storable, StringCipher.blockBytes],
  by decide⟩

theorem nextNode_insertable : Insertable (firstNode ++ nextNode) := ⟨by decide, by decide, by
  simp [firstNode, nextNode, Node.fresh, StringCipher.Storable, StringCipher.blockBytes],
  by decide⟩

/-- A storage failure ends a batch. Once the server works again, the searches for the surviving
keys of earlier batches return what they returned before, in any order; a search for another key
returns no node. -/
theorem interrupted_batch_searches (hempty : codec.deserialize [] = none)
    (hreached : Reached codec fuel done c) (hins : Insertable (done ++ nodes))
    (hf : (done ++ nodes).length < fuel) (insertPad findPad : ℤ → ℤ) {e : AccessError}
    (herror : (insertNodes codec fuel insertPad nodes).run (faultyClient f c) =
      .error (.access e) u) :
    (∃ moment s, Stopped codec fuel (batch nodes insertPad) (faultyClient f c) moment s u) ∧
      ∀ moment s, Stopped codec fuel (batch nodes insertPad) (faultyClient f c) moment s u →
        (∀ key ∈ done.map Node.key,
          (moment = .evicted → Survives done (batch nodes insertPad) moment key) ∧
          ∀ completed, moment = .acting completed →
            (Survives done (batch nodes insertPad) moment key ↔
              rootOf (treeOf (done ++ completed.flatMap Action.nodes)) ∈
                visitedIds key (treeOf done))) ∧
        ∀ c', Recovered s u c' →
          (∀ keys, (∀ key ∈ keys, key ∈ done.map Node.key ∧
              Survives done (batch nodes insertPad) moment key) →
            ∃ answers c'', (runRequests codec fuel insertPad findPad (keys.map .find)).run c' =
              .ok answers c'' ∧
              List.Forall₂ (SameAnswer codec fuel findPad c) keys answers) ∧
          ∀ key, ¬ Survives done (batch nodes insertPad) moment key → ∀ fuel' n c'',
            (OdictClient.find codec fuel' findPad key).run c' ≠ .ok (some n) c'' := by
  have hsub := hins.sub (List.sublist_append_left done nodes)
  have hlen : done.length < fuel := by
    rw [List.length_append] at hf
    exact (Nat.le_add_right _ _).trans_lt hf
  have hbatch := batch_nodes nodes insertPad
  obtain ⟨V, hready⟩ := reached_ready hreached hsub
  have hsession : ((batch nodes insertPad).run codec fuel).run (faultyClient f c) =
      .error (.access e) u := by
    rw [insertNodes_eq_session] at herror
    rcases bind_error herror with hrun | ⟨_, _, _, hpure⟩
    · exact hrun
    · cases hpure
  generalize batch nodes insertPad = w at hsession hbatch ⊢
  subst hbatch
  refine ⟨stopped_of_error hsession, ?_⟩
  intro moment s hstop
  obtain ⟨V', hleft, hstores, hvalid⟩ := stopped_links hready hins hf hstop
  constructor
  · intro key hkey
    constructor
    · intro hmoment
      subst hmoment
      exact survives_evicted hins hkey
    · intro completed hmoment
      subst hmoment
      exact survives_acting hsub hkey completed
  · intro c' hrec
    have hstands := recovered_standing hready hleft hstores hvalid hrec
    constructor
    · intro keys hkeys
      apply finds_walk hstands _ insertPad findPad
      intro key hkey
      obtain ⟨hmem, hsurvives⟩ := hkeys key hkey
      obtain ⟨item, hitem⟩ := lookup_of_mem hmem
      obtain ⟨path, hwalk, hpath⟩ := hsurvives.walk hitem
      obtain ⟨n₀, c₀, hbefore, hn₀⟩ := ready_find hready hsub hlen findPad hitem
      refine ⟨path, _, hwalk, hpath.trans_lt hf, ?_⟩
      intro n hn
      exact ⟨n, n₀, c₀, rfl, hbefore, hn.trans hn₀.symm⟩
    · intro key hnot fuel' n c'' hrun
      exact hnot (find_meets hstands hempty (fun i b hb => linksAt_inRange hins hb key)
        (rootAt_inRange hins hstop) hrun)

/-- The root moved to a node that was not written: the only key is lost. -/
theorem interrupted_batch_loses_key : ∃ c s u c' n c₁,
    Reached ObjectArchive.nodeCodec 4 firstNode c ∧
    (insertNodes ObjectArchive.nodeCodec 4 (fun _ => 0) risingNodes).run (faultyClient lateCall c) =
      .error (.access (.storage .rpc)) u ∧
    Stopped ObjectArchive.nodeCodec 4 (batch risingNodes fun _ => 0) (faultyClient lateCall c)
      (.acting (batch risingNodes fun _ => 0).actions) s u ∧ Recovered s u c' ∧
    (OdictClient.find ObjectArchive.nodeCodec 4 (fun _ => 0) [97]).run c = .ok (some n) c₁ ∧
    ∀ fuel n' c₂, (OdictClient.find ObjectArchive.nodeCodec fuel (fun _ => 0) [97]).run c' ≠
      .ok (some n') c₂ := by
  have hvalue : firstRead risingNodes = some (9, .access (.storage .rpc)) := by decide +kernel
  obtain ⟨c, s, u, hreached, herror, hstop⟩ := second_batch_stops (by decide) hvalue
  have hfirst := firstNode_insertable
  have hnodes := batch_nodes risingNodes fun _ => 0
  have hins : Insertable (firstNode ++ (batch risingNodes fun _ => 0).nodes) :=
    hnodes ▸ risingNodes_insertable
  have hf : (firstNode ++ (batch risingNodes fun _ => 0).nodes).length < 4 := by
    rw [hnodes]
    decide
  obtain ⟨V, hready⟩ := reached_ready hreached hfirst
  obtain ⟨V', hleft, hstores, hvalid⟩ := stopped_links hready hins hf hstop
  have hrec := recovered_mended hready hins hf hstop
  have hstands := recovered_standing hready hleft hstores hvalid hrec
  have hlen : firstNode.length < 4 := by decide
  have hlookup : lookup [97] (treeOf firstNode) = some ⟨1, []⟩ := by decide
  obtain ⟨n, c₁, hfind, _⟩ := ready_find hready hfirst hlen (fun _ => 0) hlookup
  refine ⟨c, s, u, _, n, c₁, hreached, herror, hstop, hrec, hfind, ?_⟩
  intro fuel n' c₂ hrun
  have hmeets := find_meets hstands rfl (fun i b hb => linksAt_inRange hins hb _)
    (rootAt_inRange hins hstop) hrun
  have hsurvives := (survives_acting hfirst (by decide) _).mp hmeets
  revert hsurvives
  decide

theorem interrupted_batch_searches_next : ∃ c s u c' answers c'',
    (insertNodes ObjectArchive.nodeCodec 4 (fun _ => 0) nextNode).run (faultyClient lateCall c) =
      .error (.access (.storage .rpc)) u ∧ Recovered s u c' ∧
    (runRequests ObjectArchive.nodeCodec 4 (fun _ => 0) (fun _ => 0) ([[97], [97]].map .find)).run
      c' = .ok answers c'' ∧
    List.Forall₂ (SameAnswer ObjectArchive.nodeCodec 4 (fun _ => 0) c) [[97], [97]] answers := by
  have hvalue : firstRead nextNode = some (2, .access (.storage .rpc)) := by decide +kernel
  obtain ⟨c, s, u, hreached, herror, hstop⟩ := second_batch_stops (by decide) hvalue
  have hnodes := batch_nodes nextNode fun _ => 0
  have hins : Insertable (firstNode ++ (batch nextNode fun _ => 0).nodes) :=
    hnodes ▸ nextNode_insertable
  have hf : (firstNode ++ (batch nextNode fun _ => 0).nodes).length < 4 := by
    rw [hnodes]
    decide
  obtain ⟨V, hready⟩ := reached_ready hreached firstNode_insertable
  have hrec := recovered_mended hready hins hf hstop
  obtain ⟨_, hall⟩ := interrupted_batch_searches rfl hreached nextNode_insertable (by decide)
    (fun _ => 0) (fun _ => 0) herror
  obtain ⟨hsurvives, hsearch⟩ := hall _ s hstop
  have hkey : Survives firstNode (batch nextNode fun _ => 0)
      (.acting (batch nextNode fun _ => 0).actions) [97] :=
    ((hsurvives [97] (by decide)).2 _ rfl).mpr (by decide)
  obtain ⟨answers, c'', hrun, hanswers⟩ := (hsearch _ hrec).1 [[97], [97]] (by
    intro key hmem
    have heq : key = [97] := by simpa using hmem
    exact heq ▸ ⟨by decide, hkey⟩)
  exact ⟨c, s, u, _, answers, c'', herror, hrec, hrun, hanswers⟩

end BatchFailure
