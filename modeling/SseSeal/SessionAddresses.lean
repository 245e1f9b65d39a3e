import SseSeal.AddressTrace
import SseSeal.Dictionary
import SseSeal.SessionInvariants

/-! The addresses of a session of the dictionary. An address that is used is that of a node that
is cached from then on, so the nodes of the tree and the dummies are all that a session reaches. -/
namespace SessionAddresses

open Bytes Objects StateExcept BinaryTree OramAccessController ClientCache OdictClient
open ClientSession ClientTree Dictionary SessionInvariants AddressTrace

def Full (c : Cache) : Prop := c.maxSize ≤ c.cacheItems.length

theorem length_le_filter_ne {l : List (ℤ × Node)} (hd : (l.map Prod.fst).Nodup) (id : ℤ) :
    l.length ≤ (l.filter (·.1 ≠ id)).length + 1 := by
  have hfilter : (l.filter (·.1 ≠ id)).map Prod.fst = (l.map Prod.fst).erase id := by
    rw [hd.erase_eq_filter, List.filter_map]
    congr 1
    apply List.filter_congr
    intro e _
    by_cases he : e.1 = id
    · simp [he]
    · simp [he]
  have hlen := congrArg List.length hfilter
  rw [List.length_map, List.length_erase, List.length_map] at hlen
  split at hlen <;> omega

theorem evict_eq {c c' : Cache} {r : Node} (h : c.evict = some (r, c')) :
    ∃ back, c' = { c with
      cacheItems := c.cacheItems.filter (·.1 ≠ back)
      lruTable := c.lruTable.dropLast } := by
  obtain ⟨back, _, h⟩ := Option.bind_eq_some_iff.mp h
  obtain ⟨ret, _, h⟩ := Option.bind_eq_some_iff.mp h
  cases h
  exact ⟨back, rfl⟩

section Put

variable {c c' : Cache} {id i : ℤ} {n r : Node}

theorem find?_place_ne_none : (c.place id n).find? i ≠ none ↔ i = id ∨ c.find? i ≠ none := by
  rw [Ne, Ne, find?_eq_none, find?_eq_none, not_not, not_not, List.mem_map, List.mem_map]
  constructor
  · intro h
    obtain ⟨e, he, rfl⟩ := h
    rcases mem_place.mp he with rfl | ⟨he, _⟩
    · exact Or.inl rfl
    · exact Or.inr ⟨e, he, rfl⟩
  · intro h
    by_cases hi : i = id
    · exact ⟨(id, n), mem_place.mpr (Or.inl rfl), hi.symm⟩
    · obtain ⟨e, he, rfl⟩ := h.resolve_left hi
      exact ⟨e, mem_place.mpr (Or.inr ⟨he, hi⟩), rfl⟩

/-- A cache that an item was put in is full, or has the item besides all that it had. -/
theorem put_full (hd : (c.cacheItems.map Prod.fst).Nodup) (h : c.put id n = some (r, c')) :
    (c'.cacheItems.map Prod.fst).Nodup ∧
      (Full c' ∨ ¬ Full c ∧ ∀ i, i = id ∨ c.find? i ≠ none → c'.find? i ≠ none) := by
  have hplace : ((c.place id n).cacheItems.map Prod.fst).Nodup := place_nodup hd
  rw [Cache.put] at h
  split at h
  · rename_i hlarge
    obtain ⟨back, rfl⟩ := evict_eq h
    refine ⟨hplace.sublist (List.filter_sublist.map _), Or.inl ?_⟩
    have hlen := length_le_filter_ne hplace back
    change c.maxSize < (c.place id n).cacheItems.length at hlarge
    change c.maxSize ≤ ((c.place id n).cacheItems.filter (·.1 ≠ back)).length
    omega
  · cases h
    refine ⟨hplace, ?_⟩
    by_cases hfull : Full (c.place id n)
    · exact Or.inl hfull
    · refine Or.inr ⟨?_, fun i hi => find?_place_ne_none.mpr hi⟩
      have hlen := length_le_filter_ne hd id
      have hnew : (c.place id n).cacheItems.length =
          (c.cacheItems.filter (·.1 ≠ id)).length + 1 := by
        rw [Cache.place, (c.order.perm _ _).length_eq, List.length_cons]
      intro hc
      apply hfull
      rw [Full] at hc ⊢
      change c.maxSize ≤ (c.place id n).cacheItems.length
      omega

end Put

variable {codec : Codec Node} {k₀ : Controller} {c c' : Client} {id : ℤ} {n r : Node}

/-- The addresses used since `k₀` are those of nodes that are cached now, if the cache has evicted
no item. -/
structure Covered (codec : Codec Node) (k₀ : Controller) (c : Client) : Prop where
  nodup : (c.cache.cacheItems.map Prod.fst).Nodup
  uses : Full c.cache ∨ Uses codec {i | Cached c i} k₀ c.controller

theorem onController_ok {α : Type} {x : ControllerM α} {a : α}
    (h : (onController x).run c = .ok a c') :
    ∃ k, x.run c.controller = .ok a k ∧ c' = c.withController k := by
  change focus Client.controller Client.withController ClientError.access x c = _ at h
  rw [focus] at h
  split at h
  · rename_i k hrun
    cases h
    exact ⟨k, hrun, rfl⟩
  · cases h

theorem cacheGet_ok (h : (cacheGet id).run c = .ok r c') :
    ∃ lru, c' = { c with cache := { c.cache with lruTable := lru } } := by
  change EStateM.Result.ok _ _ = _ at h
  cases h
  rw [Cache.get]
  split
  · exact ⟨c.cache.lruTable, rfl⟩
  · exact ⟨_, rfl⟩

theorem cachePut_ok {a : PUnit} (h : (cachePut id n).run c = .ok a c') :
    ∃ old cache, c.cache.put id n = some (old, cache) ∧ c' = { c with cache := cache } := by
  obtain ⟨_, _, hget, h⟩ := bind_ok h
  cases hget
  obtain ⟨⟨old, cache⟩, _, hput, hset⟩ := bind_ok h
  obtain ⟨hput, rfl⟩ := orThrow_ok hput
  cases hset
  exact ⟨old, cache, hput, rfl⟩

theorem cacheHelper_ok (h : (cacheHelper codec id).run c = .ok r c') :
    ∃ k, Access codec {id} c.controller k ∧ c' = c.withController k := by
  obtain ⟨pos, _, hpos, h⟩ := bind_ok h
  obtain ⟨_, _, hget, hpos⟩ := bind_ok hpos
  cases hget
  cases hpos
  obtain ⟨buffer, _, hread, h⟩ := bind_ok h
  obtain ⟨k, hrun, rfl⟩ := onController_ok hread
  obtain ⟨ret, _, hret, h⟩ := bind_ok h
  obtain ⟨_, rfl⟩ := orThrow_ok hret
  obtain ⟨_, _, hget, h⟩ := bind_ok h
  cases hget
  obtain ⟨plaintext, _, hplain, h⟩ := bind_ok h
  obtain ⟨_, rfl⟩ := orThrow_ok hplain
  obtain ⟨key, _, hkey, h⟩ := bind_ok h
  obtain ⟨_, rfl⟩ := orThrow_ok hkey
  cases h
  exact ⟨k, .direct .read (Node.ofTag id _) rfl (Or.inl ⟨_, hrun⟩), rfl⟩

theorem Covered.congr (h : Covered codec k₀ c) (hk : c'.controller = c.controller)
    (hmax : c'.cache.maxSize = c.cache.maxSize)
    (hitems : c'.cache.cacheItems = c.cache.cacheItems) : Covered codec k₀ c' := by
  obtain ⟨hd, huses⟩ := h
  have hcached : {i | Cached c' i} = {i | Cached c i} := by
    ext i
    simp [Cached, Cache.find?, hitems]
  refine ⟨by rwa [hitems], ?_⟩
  rwa [Full, hmax, hitems, hcached, hk]

theorem Covered.put {k : Controller} (h : Covered codec k₀ c)
    (haccess : Uses codec {id} c.controller k) {a : PUnit}
    (hput : (cachePut id n).run (c.withController k) = .ok a c') : Covered codec k₀ c' := by
  obtain ⟨old, cache, hcache, rfl⟩ := cachePut_ok hput
  obtain ⟨hd, hfull⟩ := put_full h.nodup hcache
  refine ⟨hd, ?_⟩
  rcases hfull with hfull | ⟨hfull, hkeeps⟩
  · exact Or.inl hfull
  · have huses := h.uses.resolve_left hfull
    refine Or.inr ((huses.mono ?_).trans (haccess.mono ?_))
    · intro i hi
      exact hkeeps i (Or.inr hi)
    · rintro i rfl
      exact hkeeps _ (Or.inl rfl)

theorem cachePut_covered : Stable (Covered codec k₀) (fun _ => True) (cachePut id n) := by
  apply stable_of_ok
  intro c a c' hc hrun
  exact hc.put (Uses.refl codec _ _) (k := c.controller) hrun

theorem fetch_covered {f : Node → Node} {g : Node → Str} :
    Stable (Covered codec k₀) (fun _ => True) (do
      let node ← cacheHelper codec id
      cachePut id (f node)
      return g node) := by
  apply stable_of_ok
  intro c a c' hc hrun
  obtain ⟨node, c₁, hfetch, hrun⟩ := bind_ok hrun
  obtain ⟨k, haccess, rfl⟩ := cacheHelper_ok hfetch
  obtain ⟨_, c₂, hput, hrun⟩ := bind_ok hrun
  cases hrun
  exact hc.put ((Uses.refl codec _ _).tail haccess) hput

theorem odsAccess_covered (op : OdictOperation) (hop : op.op ≠ .delete) :
    Stable (Covered codec k₀) (fun _ => True) (odsAccess codec op) := by
  have hget : ∀ id, Stable (Covered codec k₀) (fun _ => True) (cacheGet id) := by
    intro id
    apply stable_of_ok
    intro c r c' hc hrun
    obtain ⟨lru, rfl⟩ := cacheGet_ok hrun
    exact hc.congr rfl rfl rfl
  apply (stable_orThrow (fun _ _ => trivial) _ _).bind
  intro node
  cases hcase : op.op with
  | read =>
    refine .bind (stable_modify fun c hc => hc.congr rfl rfl rfl) ?_
    intro _
    apply (hget _).bind
    intro ret
    split
    · exact stable_pure _
    · exact fetch_covered
  | write =>
    refine .bind (stable_modify fun c hc => hc.congr rfl rfl rfl) ?_
    intro _
    apply (hget _).bind
    intro ret
    split
    · exact cachePut_covered.bind fun _ => stable_pure _
    · exact fetch_covered
  | delete => exact absurd hcase hop
  | insert => exact cachePut_covered.bind fun _ => stable_pure _

variable {S : Set ℤ}

/-- The addresses used since `k₀` are in `S`, and so are the ids of the cached nodes. -/
structure Spends (codec : Codec Node) (S : Set ℤ) (k₀ : Controller) (c : Client) : Prop where
  cached : ∀ e ∈ c.cache.cacheItems, e.2.id ∈ S
  uses : Uses codec S k₀ c.controller

theorem onController_spends {α : Type} {x : ControllerM α}
    (hx : Stable (Uses codec S k₀) (Uses codec S k₀) x) :
    Stable (Spends codec S k₀) (fun _ => True) (onController x) :=
  hx.focus Client.controller Client.withController ClientError.access (fun _ hc => hc.uses)
    (fun _ _ hc hk => ⟨hc.cached, hk⟩) fun _ _ _ _ => trivial

theorem drawTags_uses {items : List (ℤ × Node)} {tags : ℤ → ℤ} {k k' : Controller}
    {r : List (ℤ × Node) × (ℤ → ℤ)} (h : (drawTags items tags).run k = .ok r k')
    (hk : Uses codec S k₀ k) (hitems : ∀ e ∈ items, e.2.id ∈ S) :
    Uses codec S k₀ k' ∧ ∀ e ∈ r.1, e.2.id ∈ S := by
  induction items generalizing tags k r with
  | nil =>
    cases h
    exact ⟨hk, fun _ he => absurd he List.not_mem_nil⟩
  | cons e items ih =>
    obtain ⟨tag, k₁, hdraw, h⟩ := bind_ok h
    obtain ⟨⟨rest, tags'⟩, k₂, hrest, h⟩ := bind_ok h
    cases h
    have hk₁ := (randomNewPos_stable k₀ k hk).post_of_ok hdraw
    obtain ⟨hk₂, hin⟩ := ih hrest hk₁ fun b hb => hitems b (List.mem_cons_of_mem _ hb)
    refine ⟨hk₂, ?_⟩
    intro b hb
    rcases List.mem_cons.mp hb with rfl | hb
    · exact hitems e List.mem_cons_self
    · exact hin b hb

theorem retagCache_spends : Stable (Spends codec S k₀) (fun _ => True) retagCache := by
  apply stable_get_bind
  intro c hc
  apply stable_of_ok
  intro c₁ _ c₄ hc₁ hrun
  obtain ⟨⟨rootPos, cache⟩, c₂, hupdate, hrun⟩ := bind_ok hrun
  obtain ⟨k, hdraw, rfl⟩ := onController_ok hupdate
  obtain ⟨⟨items, tags⟩, k', hdraw, hcache⟩ := bind_ok hdraw
  cases hcache
  cases hrun
  obtain ⟨huses, hin⟩ := drawTags_uses hdraw hc₁.uses hc.cached
  refine ⟨?_, huses⟩
  intro e he
  obtain ⟨b, hb, rfl⟩ := List.mem_map.mp he
  exact hin b hb

theorem evictNode_spends : Stable (Spends codec S k₀) (fun _ => True) (evictNode codec) := by
  apply stable_get_bind
  intro c hc
  split
  · exact stable_throw (fun _ _ => trivial) _
  · rename_i id node items hitems
    apply (stable_orThrow (fun _ _ => trivial) _ _).bind
    intro ciphertext
    apply (stable_orThrow (fun _ _ => trivial) _ _).bind
    intro encryptedKey
    have hid : node.id ∈ S := hc.cached (id, node) (hitems ▸ List.mem_cons_self)
    refine .bind (onController_spends (direct_stable k₀ hid)) ?_
    intro _
    apply stable_modify
    intro c₁ hc₁
    exact ⟨fun e he => hc₁.cached e (List.mem_of_mem_tail he), hc₁.uses⟩

theorem odsFinalize_spends (hzero : 0 ∈ S) (pad : ℤ) :
    Stable (Spends codec S k₀) (fun _ => True) (odsFinalize codec pad) := by
  have hread : Stable (Spends codec S k₀) (fun _ => True) dummyRead :=
    (onController_spends (access_stable k₀ hzero)).bind fun _ => stable_pure _
  have hwrite : Stable (Spends codec S k₀) (fun _ => True) (dummyWrite codec) :=
    (onController_spends (access_stable k₀ hzero)).bind fun _ => stable_pure _
  apply retagCache_spends.bind
  intro _
  apply stable_get.bind
  intro c
  apply (stable_forM fun _ _ => hread).bind
  intro _
  apply (stable_get.bind fun _ => stable_forM fun _ _ => evictNode_spends).bind
  intro _
  apply stable_get.bind
  intro c
  apply (stable_forM fun _ _ => hwrite).bind
  intro _
  exact stable_modify fun c hc => ⟨hc.cached, hc.uses⟩

variable {V V₀ : ℤ → Option Node} {done nodes : List Node} {fuel : ℕ}

def nodeIds (nodes : List Node) : Set ℤ := {i | i = 0 ∨ i ∈ ids (treeOf nodes)}

theorem Open.mem_ids (h : Open codec V₀ done c V) {i : ℤ} (hi : Cached c i) :
    i ∈ ids (treeOf done) := by
  apply h.support
  obtain ⟨n, hn⟩ := Option.ne_none_iff_exists'.mp hi
  rw [h.shows'.cached i n hn]
  exact Option.some_ne_none _

theorem Open.cacheItems_le (h : Open codec V₀ done c V) :
    c.cache.cacheItems.length ≤ (treeOf done).numNodes := by
  have hsub : c.cache.cacheItems.map Prod.fst ⊆ ids (treeOf done) := by
    intro i hi
    apply Open.mem_ids h
    intro hnone
    exact find?_eq_none.mp hnone hi
  have hlen := (h.shows'.cache.nodup.subperm hsub).length_le
  rwa [ids, List.length_map, List.length_map, AvlTree.length_entries] at hlen

theorem finish_uses (h : Open codec V₀ done c V) (hcovered : Covered codec k₀ c)
    (hroom : (treeOf done).numNodes < 2 ^ 31 - 1) (pad : ℤ) :
    Returns (odsFinalize codec pad) c fun _ c' => (∃ V', Idle codec done c' V') ∧
      Uses codec (nodeIds done) k₀ c'.controller := by
  obtain ⟨_, c', hrun, tags, _, hidle⟩ := finish_returns h pad
  have hfull : ¬ Full c.cache := by
    have hle := Open.cacheItems_le h
    rw [Full, h.shows'.cache.maxSize_eq]
    omega
  have hspends : Spends codec (nodeIds done) k₀ c := by
    refine ⟨?_, (hcovered.uses.resolve_left hfull).mono fun i hi => Or.inr (Open.mem_ids h hi)⟩
    intro e he
    rw [h.shows'.cache.named e he]
    refine Or.inr (Open.mem_ids h ?_)
    intro hnone
    exact find?_eq_none.mp hnone (List.mem_map_of_mem he)
  have hdone := (odsFinalize_spends (Or.inl rfl) pad c hspends).post_of_ok hrun
  exact ⟨_, c', hrun, ⟨_, hidle⟩, hdone.uses⟩

theorem covered_start (hstart : c' = { c with cache := c.cache.clear }) :
    Covered codec c.controller c' := by
  subst hstart
  exact ⟨List.nodup_nil, Or.inr (Uses.refl codec _ _)⟩

theorem insertNodes_uses (h : Idle codec done c V) (hins : Insertable (done ++ nodes))
    (hf : (done ++ nodes).length ≤ fuel)
    (hroom : (treeOf (done ++ nodes)).numNodes < 2 ^ 31 - 1) (pad : ℤ → ℤ) :
    Returns (insertNodes codec fuel pad nodes) c fun _ c' =>
      (∃ V', Idle codec (done ++ nodes) c' V') ∧
        Uses codec (nodeIds (done ++ nodes)) c.controller c'.controller := by
  apply (odsStart_returns h).bind
  intro _ c₁ hpost
  obtain ⟨hstart, _, hopen⟩ := hpost
  obtain ⟨_, c₂, hrun, V₂, hopen₂⟩ := insertAll_returns hopen hins hf
  have hcovered := (insertAll_stable (fun _ _ => trivial) odsAccess_covered
    (fun c id hc => hc.congr rfl rfl rfl) fuel nodes c₁ (covered_start hstart)).post_of_ok hrun
  obtain ⟨⟨⟩, c₃, hfin, hdone⟩ := finish_uses hopen₂ hcovered hroom (pad c₂.nodeCount)
  refine ⟨⟨⟩, c₃, ?_, hdone⟩
  rw [run_bind_ok hrun, run_bind_ok (run_get c₂), hfin]

theorem find_uses (h : Idle codec done c V) (hdone : Insertable done) (hf : done.length < fuel)
    (hroom : (treeOf done).numNodes < 2 ^ 31 - 1) (pad : ℤ → ℤ) (key : Str) :
    Returns (OdictClient.find codec fuel pad key) c fun _ c' =>
      (∃ V', Idle codec done c' V') ∧
        Uses codec (nodeIds done) c.controller c'.controller := by
  apply (odsStart_returns h).bind
  intro _ c₁ hpost
  obtain ⟨hstart, _, hopen⟩ := hpost
  obtain ⟨r, c₂, hrun, _, hopen₂, _⟩ := findOne_returns hopen hdone hf key
  have hcovered := (findPriv_stable (fun _ _ => trivial) odsAccess_covered key fuel c₁.rootId c₁
    (covered_start hstart)).post_of_ok hrun
  obtain ⟨_, c₃, hfin, hfinished⟩ := finish_uses hopen₂ hcovered hroom (pad c₂.nodeCount)
  refine ⟨r, c₃, ?_, hfinished⟩
  rw [run_bind_ok (run_get c₁), run_bind_ok hrun, run_bind_ok (run_get c₂), run_bind_ok hfin,
    run_pure]

end SessionAddresses
