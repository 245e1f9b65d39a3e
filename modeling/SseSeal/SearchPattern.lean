import SseSeal.OramTrace
import SseSeal.SessionAddresses

/-! What the storage sees of the dictionary. No session moves a node to another leaf, so a search
shows the leaves of the nodes on its path as the constructor drew them. -/
namespace SearchPattern

open Bytes Objects StateExcept CallTrace AvlTree BinaryTree OramReadPathEviction OramEviction
open OramAccess
open OramCalls OramMemory OramTrace OramAccessController ClientCache OdictClient ClientSession
open ClientTree Dictionary SessionInvariants SessionAddresses

variable {codec : Codec Node} {L : ℕ → ℕ} {levels : ℕ} {k k' k'' : Controller} {c c' : Client}
  {op : OramAccessOp} {data : Str} {n : Node} {i : ℤ} {ls ls' : List ℕ}

/-- The leaves of all indices but 0 are those of `L`. -/
structure Anchored (L : ℕ → ℕ) (levels : ℕ) (k : Controller) : Prop where
  positions : ∀ j, j ≠ 0 → k.oram.positionMap j = L j
  numLevels : k.oram.numLevels = levels
  maxSize : k.oram.maxSize = k.oram.bucketSize

theorem Anchored.frame {u : Oram} (h : Anchored L levels k) (hf : Frame k.oram u) :
    Anchored L levels { k with oram := u } := by
  obtain ⟨hpos, hlevels, hmax⟩ := h
  refine ⟨?_, hf.numLevels.trans hlevels, ?_⟩
  · intro j hj
    rw [hf.positionMap]
    exact hpos j hj
  · rw [hf.maxSize, hf.bucketSize, hmax]

def Anchoring : Call → Prop
  | .access _ i _ => i = 0
  | .direct _ _ => True

theorem Anchored.call {call : Call} {u : Oram} {answer : Str} (h : Anchored L levels k)
    (hcall : Anchoring call) (hrun : (call.run codec).run k.oram = .ok answer u) :
    Anchored L levels { k with oram := u } := by
  rw [Call.run_eq] at hrun
  have hmax : (call.prepare k.oram).maxSize = (call.prepare k.oram).bucketSize := by
    cases call with
    | access op i newData => exact h.maxSize
    | direct op node =>
      simp only [Call.prepare]
      split
      · exact h.maxSize
      · exact h.maxSize
  obtain ⟨_, rfl⟩ := accessHandler_ok hmax hrun
  have hpos : ∀ j, j ≠ 0 → (call.prepare k.oram).positionMap j = L j := by
    intro j hj
    rw [← h.positions j hj]
    cases call with
    | access op i newData =>
      apply Call.prepare_positionMap_of_ne
      intro heq
      exact hj (heq.trans hcall)
    | direct op node =>
      simp only [Call.prepare]
      split <;> rfl
  have hprepare : Anchored L levels { k with oram := call.prepare k.oram } :=
    ⟨hpos, Call.prepare_numLevels.trans h.numLevels, hmax⟩
  exact hprepare.frame (handled_frame _ _ _ _ _ _)

theorem issue_ok {access : Operation → OramM Str} {answer : Str}
    (h : (issue op access).run k = .ok answer k') :
    ∃ operation, (access operation).run k.oram = .ok answer k'.oram := by
  rw [issue] at h
  split at h
  · cases h
  · rename_i operation _
    obtain ⟨_, _, hcount, h⟩ := bind_ok h
    cases hcount
    refine ⟨operation, ?_⟩
    simp only [onOram, focus, EStateM.run] at h
    split at h
    · rename_i hrun
      cases h
      exact hrun
    · cases h

theorem Anchored.congr (h : Anchored L levels k) (ho : k'.oram = k.oram) :
    Anchored L levels k' := by
  obtain ⟨hpos, hlevels, hmax⟩ := h
  rw [← ho] at hpos hlevels hmax
  exact ⟨hpos, hlevels, hmax⟩

theorem direct_anchored : Stable (Anchored L levels) (fun _ => True)
    (obliviousAccessDirect codec op (codec.serialize n)) := by
  apply stable_of_ok
  intro k answer k' hk hrun
  obtain ⟨operation, hrun⟩ := issue_ok hrun
  have hcall : ((Call.direct operation n).run codec).run k.oram = .ok answer k'.oram := hrun
  refine (hk.call ?_ hcall).congr rfl
  trivial

theorem zero_anchored : Stable (Anchored L levels) (fun _ => True) (obliviousAccess op 0 data) := by
  apply stable_of_ok
  intro k answer k' hk hrun
  obtain ⟨operation, hrun⟩ := issue_ok hrun
  have hcall : ((Call.access operation (toUnsigned 0) data).run ObjectArchive.nodeCodec).run
      k.oram = .ok answer k'.oram := hrun
  refine (hk.call ?_ hcall).congr rfl
  rfl

theorem randomNewPos_ok {leaf : ℤ} (h : randomNewPos.run k = .ok leaf k') :
    k' = { k with oram := { k.oram with randGen := k.oram.randGen.advance } } := by
  obtain ⟨_, _, hdraw, h⟩ := bind_ok h
  cases hdraw
  cases h
  rfl

theorem drawTags_ok {items : List (ℤ × Node)} {tags : ℤ → ℤ} {r : List (ℤ × Node) × (ℤ → ℤ)}
    (h : (drawTags items tags).run k = .ok r k') :
    ∃ randGen, k' = { k with oram := { k.oram with randGen := randGen } } := by
  induction items generalizing tags k r with
  | nil =>
    cases h
    exact ⟨_, rfl⟩
  | cons e items ih =>
    obtain ⟨tag, k₁, hdraw, h⟩ := bind_ok h
    obtain ⟨⟨rest, tags'⟩, k₂, hrest, h⟩ := bind_ok h
    cases h
    obtain rfl := randomNewPos_ok hdraw
    obtain ⟨randGen, rfl⟩ := ih hrest
    exact ⟨randGen, rfl⟩

theorem updatePos_ok {cache : Cache} {rootId : ℤ} {r : ℤ × Cache}
    (h : (updatePos cache rootId).run k = .ok r k') :
    ∃ randGen, k' = { k with oram := { k.oram with randGen := randGen } } := by
  obtain ⟨⟨items, tags⟩, _, hdraw, h⟩ := bind_ok h
  cases h
  exact drawTags_ok hdraw

theorem updatePos_anchored (cache : Cache) (rootId : ℤ) :
    Stable (Anchored L levels) (fun _ => True) (updatePos cache rootId) := by
  apply stable_of_ok
  intro k r k' hk hrun
  obtain ⟨randGen, rfl⟩ := updatePos_ok hrun
  exact ⟨hk.positions, hk.numLevels, hk.maxSize⟩

abbrev AnchoredStable {α : Type} (L : ℕ → ℕ) (levels : ℕ) (x : ClientM α) : Prop :=
  Stable (fun c => Anchored L levels c.controller) (fun _ => True) x

theorem onController_anchored {α : Type} {x : ControllerM α}
    (hx : Stable (Anchored L levels) (fun _ => True) x) :
    AnchoredStable L levels (onController x) :=
  hx.focus Client.controller Client.withController ClientError.access (fun _ hc => hc)
    (fun _ _ _ hk => hk) fun _ _ _ _ => trivial

theorem cacheGet_anchored : AnchoredStable L levels (cacheGet i) := by
  apply stable_of_ok
  intro c r c' hc hrun
  obtain ⟨lru, rfl⟩ := cacheGet_ok hrun
  exact hc

theorem cachePut_anchored : AnchoredStable L levels (cachePut i n) := by
  apply stable_of_ok
  intro c a c' hc hrun
  obtain ⟨old, cache, _, rfl⟩ := cachePut_ok hrun
  exact hc

theorem cacheHelper_anchored : AnchoredStable L levels (cacheHelper codec i) := by
  apply (stable_get.bind fun _ => stable_pure _).bind
  intro pos
  apply (onController_anchored direct_anchored).bind
  intro buffer
  apply (stable_orThrow (fun _ _ => trivial) _ _).bind
  intro ret
  apply stable_get.bind
  intro c
  apply (stable_orThrow (fun _ _ => trivial) _ _).bind
  intro plaintext
  exact (stable_orThrow (fun _ _ => trivial) _ _).bind fun _ => stable_pure _

theorem odsAccess_anchored (op : OdictOperation) :
    AnchoredStable L levels (odsAccess codec op) := by
  apply (stable_orThrow (fun _ _ => trivial) _ _).bind
  intro node
  cases op.op with
  | read =>
    refine .bind (stable_modify fun c hc => hc) ?_
    intro _
    apply cacheGet_anchored.bind
    intro ret
    split
    · exact stable_pure _
    · apply cacheHelper_anchored.bind
      intro fetched
      exact cachePut_anchored.bind fun _ => stable_pure _
  | write =>
    refine .bind (stable_modify fun c hc => hc) ?_
    intro _
    apply cacheGet_anchored.bind
    intro ret
    split
    · exact cachePut_anchored.bind fun _ => stable_pure _
    · apply cacheHelper_anchored.bind
      intro fetched
      exact cachePut_anchored.bind fun _ => stable_pure _
  | delete =>
    apply cacheGet_anchored.bind
    intro ret
    split
    · exact stable_pure _
    · exact cacheHelper_anchored.bind fun _ => stable_pure _
  | insert => exact cachePut_anchored.bind fun _ => stable_pure _

theorem retagCache_anchored : AnchoredStable L levels retagCache := by
  apply stable_get.bind
  intro c
  apply (onController_anchored (updatePos_anchored _ _)).bind
  intro r
  exact stable_modify fun c hc => hc

theorem dummyRead_anchored : AnchoredStable L levels dummyRead :=
  (onController_anchored zero_anchored).bind fun _ => stable_pure _

theorem dummyWrite_anchored : AnchoredStable L levels (dummyWrite codec) :=
  (onController_anchored zero_anchored).bind fun _ => stable_pure _

theorem evictNode_anchored : AnchoredStable L levels (evictNode codec) := by
  apply stable_get.bind
  intro c
  split
  · exact stable_throw (fun _ _ => trivial) _
  · apply (stable_orThrow (fun _ _ => trivial) _ _).bind
    intro ciphertext
    apply (stable_orThrow (fun _ _ => trivial) _ _).bind
    intro encryptedKey
    apply (onController_anchored direct_anchored).bind
    intro _
    exact stable_modify fun c hc => hc

theorem odsFinalize_anchored (pad : ℤ) : AnchoredStable L levels (odsFinalize codec pad) := by
  apply retagCache_anchored.bind
  intro _
  apply stable_get.bind
  intro c
  apply (stable_forM fun _ _ => dummyRead_anchored).bind
  intro _
  apply (stable_get.bind fun _ => stable_forM fun _ _ => evictNode_anchored).bind
  intro _
  apply stable_get.bind
  intro c
  apply (stable_forM fun _ _ => dummyWrite_anchored).bind
  intro _
  exact stable_modify fun c hc => hc

theorem insertNodes_anchored (fuel : ℕ) (pad : ℤ → ℤ) (nodes : List Node) :
    AnchoredStable L levels (insertNodes codec fuel pad nodes) := by
  refine .bind (stable_modify fun c hc => hc) ?_
  intro _
  apply (insertAll_stable (fun _ _ => trivial) (fun op _ => odsAccess_anchored op)
    (fun _ _ hc => hc) fuel nodes).bind
  intro _
  exact stable_get.bind fun _ => odsFinalize_anchored _

theorem find_anchored (fuel : ℕ) (pad : ℤ → ℤ) (key : Str) :
    AnchoredStable L levels (OdictClient.find codec fuel pad key) := by
  refine .bind (stable_modify fun c hc => hc) ?_
  intro _
  apply stable_get.bind
  intro c
  apply (findPriv_stable (fun _ _ => trivial) (fun op _ => odsAccess_anchored op) key fuel _).bind
  intro node
  apply stable_get.bind
  intro c
  exact (odsFinalize_anchored _).bind fun _ => stable_pure _

/-- The calls to the storage from one state to another are the paths to some leaves. -/
def Touches (levels : ℕ) (ls : List ℕ) (k k' : Controller) : Prop :=
  callsOf k'.oram = callsOf k.oram ++ ls.flatMap (pathCalls levels)

theorem Touches.refl (levels : ℕ) (k : Controller) : Touches levels [] k k := by
  simp [Touches]

theorem Touches.trans (h : Touches levels ls k k') (h' : Touches levels ls' k' k'') :
    Touches levels (ls ++ ls') k k'' := by
  rw [Touches, h', h, List.flatMap_append, List.append_assoc]

theorem call_touches {o u : Oram} {call : Call} {answer : Str} (hw : WellFormed o)
    (h : (call.run codec).run o = .ok answer u) :
    callsOf u = callsOf o ++ pathCalls o.numLevels (o.positionMap call.index) := by
  have hgeo : Geometry o.numLevels o.storage.fails (call.prepare o) := by
    refine ⟨Call.prepare_numLevels, ?_, ?_⟩
    · rw [Call.prepare_storage, hw.capacity_eq, hw.buckets_eq]
    · rw [Call.prepare_storage]
  have hleaf : o.positionMap call.index < 2 ^ (o.numLevels - 1) :=
    hw.leaves_eq ▸ hw.positions_lt call.index
  have hissues := accessHandler_issues hgeo hleaf call.op call.index (call.newLeaf o)
    (call.data codec)
  rw [← Call.run_eq, h] at hissues
  cases hissues with
  | ok _ _ _ hcalls _ =>
    simpa only [callsOf, Call.prepare_storage] using hcalls

theorem direct_touches {answer : Str} (hk : Anchored L levels k) (hw : WellFormed k.oram)
    (hn : 0 < n.id ∧ n.id < 2 ^ 31)
    (h : (obliviousAccessDirect codec op (codec.serialize n)).run k = .ok answer k') :
    Touches levels [L (toUnsigned n.id)] k k' := by
  obtain ⟨operation, hrun⟩ := issue_ok h
  have hne : toUnsigned n.id ≠ 0 := by
    rw [toUnsigned]
    omega
  have hcall : ((Call.direct operation n).run codec).run k.oram = .ok answer k'.oram := hrun
  have hcalls := call_touches hw hcall
  rw [Call.index, hk.positions _ hne, hk.numLevels] at hcalls
  rw [Touches, hcalls, List.flatMap_singleton]

theorem zero_touches {answer : Str} (hk : Anchored L levels k) (hw : WellFormed k.oram)
    (h : (obliviousAccess op 0 data).run k = .ok answer k') :
    ∃ leaf, Touches levels [leaf] k k' := by
  obtain ⟨operation, hrun⟩ := issue_ok h
  have hcall : ((Call.access operation (toUnsigned 0) data).run ObjectArchive.nodeCodec).run
      k.oram = .ok answer k'.oram := hrun
  have hcalls := call_touches hw hcall
  rw [hk.numLevels] at hcalls
  refine ⟨k.oram.positionMap (toUnsigned 0), ?_⟩
  rw [Touches, List.flatMap_singleton]
  exact hcalls

theorem updatePos_touches {cache : Cache} {rootId : ℤ} {r : ℤ × Cache}
    (h : (updatePos cache rootId).run k = .ok r k') : Touches levels [] k k' := by
  obtain ⟨randGen, rfl⟩ := updatePos_ok h
  exact Touches.refl levels k

variable {V V₀ : ℤ → Option Node} {P : ℤ → Prop} {t : BinaryTree Entry} {done : List Node}
  {fuel : ℕ} {key : Str}

theorem shows_wellFormed (h : ClientSession.Shows codec c V) :
    OramEviction.WellFormed c.controller.oram := by
  obtain ⟨m, hserves, _⟩ := h.memory
  exact hserves.holds.wellFormed

theorem cacheHelper_touches {r : Node} (hk : Anchored L levels c.controller)
    (hw : OramEviction.WellFormed c.controller.oram) (hid : 0 < i ∧ i < 2 ^ 31)
    (h : (cacheHelper codec i).run c = .ok r c') :
    Touches levels [L (toUnsigned i)] c.controller c'.controller := by
  obtain ⟨pos, _, hpos, h⟩ := bind_ok h
  obtain ⟨_, _, hget, hpos⟩ := bind_ok hpos
  cases hget
  cases hpos
  obtain ⟨buffer, _, hread, h⟩ := bind_ok h
  obtain ⟨k, hrun, rfl⟩ := onController_ok hread
  obtain ⟨ret, _, hret, h⟩ := bind_ok h
  obtain ⟨_, rfl⟩ := orThrow_ok hret
  obtain ⟨_, _, hget, h⟩ := bind_ok h
  cases hget
  obtain ⟨plaintext, _, hplain, h⟩ := bind_ok h
  obtain ⟨_, rfl⟩ := orThrow_ok hplain
  obtain ⟨key, _, hkey, h⟩ := bind_ok h
  obtain ⟨_, rfl⟩ := orThrow_ok hkey
  cases h
  exact direct_touches hk hw (n := Node.ofTag i _) hid hrun

theorem readFromOram_touches {r : Node} (hk : Anchored L levels c.controller)
    (hw : OramEviction.WellFormed c.controller.oram) (hid : 0 < i ∧ i < 2 ^ 31)
    (hmiss : c.cache.find? i = none) (h : (readFromOram codec i).run c = .ok r c') :
    Touches levels [L (toUnsigned i)] c.controller c'.controller := by
  obtain ⟨s, c₁, hods, h⟩ := bind_ok h
  obtain ⟨_, rfl⟩ := orThrow_ok h
  obtain ⟨node, c₂, hnode, hread⟩ := bind_ok hods
  obtain ⟨_, rfl⟩ := orThrow_ok hnode
  obtain ⟨_, c₃, hcount, hread⟩ := bind_ok hread
  cases hcount
  obtain ⟨ret, c₄, hget, hread⟩ := bind_ok hread
  obtain ⟨_, _, hrun, rfl, rfl⟩ :=
    cacheGet_miss (c := { c₂ with readCount := c₂.readCount + 1 }) hmiss
  cases hrun.symm.trans hget
  rw [if_neg (by simp [Node.ofTag])] at hread
  obtain ⟨fetched, c₅, hfetch, hread⟩ := bind_ok hread
  obtain ⟨_, c₆, hput, hread⟩ := bind_ok hread
  cases hread
  obtain ⟨old, cache, _, rfl⟩ := cachePut_ok hput
  have hfetched : Touches levels [L (toUnsigned i)] c₂.controller c₅.controller :=
    cacheHelper_touches (c := { c₂ with readCount := c₂.readCount + 1 }) hk hw hid hfetch
  exact hfetched

theorem findPriv_touches (hk : Anchored L levels c.controller) (h : ClientSession.Shows codec c V)
    (ht : Carries V P t) (hd : (ids t).Nodup) (hc : ∀ i ∈ ids t, ¬ Cached c i)
    (hf : t.height < fuel) :
    Returns (findPriv codec key fuel (rootOf t)) c fun _ c' => Touches levels
      ((visitedIds key t).map fun i => L (toUnsigned i)) c.controller c'.controller := by
  induction t generalizing c fuel with
  | nil =>
    cases fuel with
    | zero => exact absurd hf (Nat.not_lt_zero _)
    | succ fuel =>
      rw [findPriv, rootOf, if_pos rfl]
      exact returns_pure (Touches.refl levels _)
  | node e l r hl hr =>
    cases fuel with
    | zero => exact absurd hf (Nat.not_lt_zero _)
    | succ fuel =>
      have hroot : rootOf (.node e l r) ≠ 0 := (ht.root_pos h).ne'
      have hde : Distinct e l r := nodup_build (s := .left).mp hd
      obtain ⟨⟨n, hn, hdesc⟩, _, htl, htr⟩ := ht
      have hv := h.valid _ _ hn
      have hfl : l.height < fuel := (le_max_left _ _).trans_lt (Nat.lt_of_succ_lt_succ hf)
      have hfr : r.height < fuel := (le_max_right _ _).trans_lt (Nat.lt_of_succ_lt_succ hf)
      have hmiss : c.cache.find? e.2.id = none :=
        not_not.mp (hc _ (mem_ids_build (s := .left).mpr (Or.inl rfl)))
      obtain ⟨root, c₁, hrun, hclean, _, hs₁, k, _, hc₁⟩ := readFromOram_miss h hn hmiss
      have hread : Touches levels [L (toUnsigned e.2.id)] c.controller c₁.controller :=
        readFromOram_touches hk (shows_wellFormed h) ⟨hv.pos, hv.lt⟩ hmiss hrun
      have hk₁ : Anchored L levels c₁.controller :=
        (readFromOram_stable (fun _ _ => trivial) (fun op _ => odsAccess_anchored op) _ c
          hk).post_of_ok hrun
      have hcached : ∀ i, i ≠ e.2.id → ¬ Cached c i → ¬ Cached c₁ i := by
        intro i hi hnot hin
        subst hc₁
        exact hnot (((cached_place h i).mp hin).resolve_left hi)
      rw [findPriv, if_neg hroot]
      apply (returns_of_ok hrun).bind
      intro a b hpost
      obtain ⟨rfl, rfl⟩ := hpost
      have hkey : a.key = e.1 := by
        rw [← hdesc.key, ← hclean]
        rfl
      rw [visitedIds, visited, hkey]
      by_cases heq : e.1 = key
      · rw [if_pos heq, if_pos heq]
        exact returns_pure hread
      · rw [if_neg heq, if_neg heq]
        by_cases hlt : e.1 < key
        · rw [if_pos hlt, if_pos hlt]
          have hright : a.rightId = rootOf r := by
            rw [← hdesc.otherChild, ← hclean]
            rfl
          rw [hright]
          apply (hr hk₁ hs₁ htr hde.nodup' ?_ hfr).imp
          · intro answer c₂ hrest
            exact hread.trans hrest
          · intro i hi
            exact hcached i (fun heq => hde.notMem' (heq ▸ hi))
              (hc i (mem_ids_build (s := .left).mpr (Or.inr (Or.inr hi))))
        · rw [if_neg hlt, if_neg hlt]
          have hleft : a.leftId = rootOf l := by
            rw [← hdesc.child, ← hclean]
            rfl
          rw [hleft]
          apply (hl hk₁ hs₁ htl hde.nodup ?_ hfl).imp
          · intro answer c₂ hrest
            exact hread.trans hrest
          · intro i hi
            exact hcached i (fun heq => hde.notMem (heq ▸ hi))
              (hc i (mem_ids_build (s := .left).mpr (Or.inr (Or.inl hi))))

theorem retagCache_touches (h : (retagCache.run c) = .ok ⟨⟩ c') :
    Touches levels [] c.controller c'.controller := by
  obtain ⟨_, _, hget, h⟩ := bind_ok h
  cases hget
  obtain ⟨r, _, hupdate, h⟩ := bind_ok h
  obtain ⟨k, hrun, rfl⟩ := onController_ok hupdate
  cases h
  exact updatePos_touches hrun

theorem dummies_touches {dummy : ClientM PUnit}
    (hdummy : ∀ c, ClientSession.Shows codec c V → Returns dummy c fun _ c' =>
      ClientSession.Shows codec c' V ∧
        ∃ k, k.accesses = c.controller.accesses + 1 ∧ c' = c.withController k)
    (hstable : AnchoredStable L levels dummy)
    (hone : ∀ {c c'}, Anchored L levels c.controller →
      OramEviction.WellFormed c.controller.oram → dummy.run c = .ok ⟨⟩ c' →
      ∃ leaf, Touches levels [leaf] c.controller c'.controller)
    (hk : Anchored L levels c.controller) (h : ClientSession.Shows codec c V) (rounds : ℕ) :
    Returns ((List.range rounds).forM fun _ => dummy) c fun _ c' =>
      ClientSession.Shows codec c' V ∧ Anchored L levels c'.controller ∧
        (∃ k, c' = c.withController k) ∧
        ∃ ls, ls.length = rounds ∧ Touches levels ls c.controller c'.controller := by
  apply (returns_forM (fun l u => ClientSession.Shows codec u V ∧ Anchored L levels u.controller ∧
    (∃ k, u = c.withController k) ∧ ∃ ls : List ℕ, ls.length + l.length = rounds ∧
      Touches levels ls c.controller u.controller) ?_ ?_).imp
  · intro _ c' hpost
    obtain ⟨hs, hk', hsame, ls, hlen, htouch⟩ := hpost
    exact ⟨hs, hk', hsame, ls, hlen, htouch⟩
  · intro _ l u hpost
    obtain ⟨hs, hk', ⟨k, rfl⟩, ls, hlen, htouch⟩ := hpost
    obtain ⟨⟨⟩, u', hrun, hs', k', _, rfl⟩ := hdummy _ hs
    obtain ⟨leaf, hleaf⟩ := hone hk' (shows_wellFormed hs) hrun
    refine ⟨⟨⟩, _, hrun, hs', (hstable _ hk').post_of_ok hrun, ⟨k', rfl⟩, ls ++ [leaf], ?_,
      htouch.trans hleaf⟩
    rw [List.length_append, List.length_singleton]
    rw [List.length_cons] at hlen
    omega
  · refine ⟨h, hk, ⟨c.controller, rfl⟩, [], ?_, Touches.refl levels _⟩
    rw [List.length_range, List.length_nil, Nat.zero_add]

theorem dummyRead_touches (hk : Anchored L levels c.controller)
    (hw : OramEviction.WellFormed c.controller.oram) (h : dummyRead.run c = .ok ⟨⟩ c') :
    ∃ leaf, Touches levels [leaf] c.controller c'.controller := by
  obtain ⟨_, _, hread, h⟩ := bind_ok h
  obtain ⟨k, hrun, rfl⟩ := onController_ok hread
  cases h
  exact zero_touches hk hw hrun

theorem dummyWrite_touches (hk : Anchored L levels c.controller)
    (hw : OramEviction.WellFormed c.controller.oram) (h : (dummyWrite codec).run c = .ok ⟨⟩ c') :
    ∃ leaf, Touches levels [leaf] c.controller c'.controller := by
  obtain ⟨_, _, hwrite, h⟩ := bind_ok h
  obtain ⟨k, hrun, rfl⟩ := onController_ok hwrite
  cases h
  exact zero_touches hk hw hrun

theorem evictNode_touches {rest : List (ℤ × Node)} (hk : Anchored L levels c.controller)
    (hw : OramEviction.WellFormed c.controller.oram) (hid : 0 < n.id ∧ n.id < 2 ^ 31)
    (hitems : c.cache.cacheItems = (i, n) :: rest) (h : (evictNode codec).run c = .ok ⟨⟩ c') :
    Touches levels [L (toUnsigned n.id)] c.controller c'.controller ∧
      c'.cache.cacheItems = rest := by
  obtain ⟨_, _, hget, h⟩ := bind_ok h
  cases hget
  rw [hitems] at h
  obtain ⟨ciphertext, _, hcipher, hencrypted⟩ := bind_ok h
  obtain ⟨_, rfl⟩ := orThrow_ok hcipher
  obtain ⟨encryptedKey, _, hkey, hsealed⟩ := bind_ok hencrypted
  obtain ⟨_, rfl⟩ := orThrow_ok hkey
  obtain ⟨_, _, hwrite, hpop⟩ := bind_ok hsealed
  obtain ⟨k, hrun, rfl⟩ := onController_ok hwrite
  cases hpop
  refine ⟨direct_touches hk hw (n := { n with data := ciphertext, key := encryptedKey }) hid hrun,
    ?_⟩
  exact congrArg List.tail hitems

theorem evictCache_touches (hk : Anchored L levels c.controller)
    (h : ClientSession.Shows codec c V) :
    Returns (evictCache codec) c fun _ c' => ClientSession.Shows codec c' V ∧
      Anchored L levels c'.controller ∧ c'.writeCount = c.writeCount ∧
      Touches levels (c.cache.cacheItems.map fun e => L (toUnsigned e.1)) c.controller
        c'.controller := by
  apply returns_get.bind
  intro _ _ hget
  obtain ⟨rfl, rfl⟩ := hget
  rename_i c
  apply (returns_forM (fun l u => ClientSession.Shows codec u V ∧ Anchored L levels u.controller ∧
    u.writeCount = c.writeCount ∧ u.cache.cacheItems = l ∧
    ∃ pre, pre ++ l = c.cache.cacheItems ∧
      Touches levels (pre.map fun e => L (toUnsigned e.1)) c.controller u.controller) ?_ ?_).imp
  · intro _ u hpost
    obtain ⟨hs, hk', hcount, _, pre, hpre, htouch⟩ := hpost
    rw [List.append_nil] at hpre
    subst hpre
    exact ⟨hs, hk', hcount, htouch⟩
  · intro e l u hpost
    obtain ⟨hs, hk', hcount, hitems, pre, hpre, htouch⟩ := hpost
    obtain ⟨⟨⟩, u', hrun, hs', k', _, hu'⟩ := evictNode_returns hs hitems
    have hin : e ∈ u.cache.cacheItems := by
      rw [hitems]
      exact List.mem_cons_self
    have hrange := hs.cache.range e hin
    have hname := hs.cache.named e hin
    obtain ⟨hleaf, hrest⟩ :=
      evictNode_touches hk' (shows_wellFormed hs) (hname ▸ hrange) hitems hrun
    refine ⟨⟨⟩, u', hrun, hs', (evictNode_anchored _ hk').post_of_ok hrun, ?_, hrest,
      pre ++ [e], ?_, ?_⟩
    · rw [hu']
      exact hcount
    · rw [List.append_assoc, List.singleton_append, hpre]
    · rw [List.map_append, List.map_singleton, ← hname]
      exact htouch.trans hleaf
  · exact ⟨h, hk, rfl, rfl, [], rfl, Touches.refl levels _⟩

theorem odsFinalize_touches (hk : Anchored L levels c.controller)
    (h : ClientSession.Shows codec c V) (pad : ℤ) :
    Returns (odsFinalize codec pad) c fun _ c' => ∃ reads writes : List ℕ,
      reads.length = dummyRounds pad c.readCount ∧ writes.length = dummyRounds pad c.writeCount ∧
      Touches levels (reads ++ (c.cache.cacheItems.map fun e => L (toUnsigned e.1)) ++ writes)
        c.controller c'.controller := by
  obtain ⟨⟨⟩, c₁, hretag, tags, k, _, _, hs₁, hc₁⟩ := retagCache_returns h
  have htag : Touches levels [] c.controller c₁.controller := retagCache_touches hretag
  have hk₁ : Anchored L levels c₁.controller := (retagCache_anchored c hk).post_of_ok hretag
  have hitems : (c₁.cache.cacheItems.map fun e => L (toUnsigned e.1)) =
      c.cache.cacheItems.map fun e => L (toUnsigned e.1) := by
    rw [hc₁]
    simp [mapItems]
  have hreadCount : c₁.readCount = c.readCount := by rw [hc₁]; rfl
  have hwriteCount : c₁.writeCount = c.writeCount := by rw [hc₁]; rfl
  apply (returns_of_ok hretag).bind
  intro _ _ hpost
  obtain ⟨rfl, rfl⟩ := hpost
  apply returns_get.bind
  intro _ _ hget
  obtain ⟨rfl, rfl⟩ := hget
  rename_i c₁
  apply (dummies_touches (fun _ => dummyRead_returns) dummyRead_anchored dummyRead_touches hk₁ hs₁
    _).bind
  intro _ c₂ hpost
  obtain ⟨hs₂, hk₂, ⟨k₂, hc₂⟩, reads, hreads, htouch₂⟩ := hpost
  apply (evictCache_touches hk₂ hs₂).bind
  intro _ c₃ hpost
  obtain ⟨hs₃, hk₃, hcount₃, htouch₃⟩ := hpost
  apply returns_get.bind
  intro _ _ hget
  obtain ⟨rfl, rfl⟩ := hget
  rename_i c₃
  apply (dummies_touches (fun _ => dummyWrite_returns) dummyWrite_anchored dummyWrite_touches hk₃
    hs₃ _).bind
  intro _ c₄ hpost
  obtain ⟨_, _, _, writes, hwrites, htouch₄⟩ := hpost
  apply returns_modify.imp
  intro _ c₅ hmodify
  subst hmodify
  refine ⟨reads, writes, ?_, ?_, ?_⟩
  · rw [hreads, hreadCount]
  · rw [hwrites, hcount₃, hc₂]
    exact congrArg (dummyRounds pad) hwriteCount
  · have hcache : c₂.cache = c₁.cache := by
      rw [hc₂]
      rfl
    rw [hcache, hitems] at htouch₃
    have hall := ((htag.trans htouch₂).trans htouch₃).trans htouch₄
    rwa [List.nil_append] at hall

/-- A search shows each node on the path of its key twice, in the order in which it is visited and
in that in which the cache is emptied. All else are dummies. -/
theorem find_touches (hk : Anchored L levels c.controller) (h : Idle codec done c V)
    (hdone : Insertable done) (hf : done.length < fuel) (pad : ℤ → ℤ) (key : Str) :
    Returns (OdictClient.find codec fuel pad key) c fun _ c' =>
      ∃ (reads writes : List ℕ) (evicted : List ℤ),
      reads.length = (visitedIds key (treeOf done)).length + 1 ∧ writes.length = 1 ∧
      evicted.Perm (visitedIds key (treeOf done)) ∧
      Touches levels (((visitedIds key (treeOf done)).map fun i => L (toUnsigned i)) ++
        (reads ++ (evicted.map fun i => L (toUnsigned i)) ++ writes)) c.controller
        c'.controller := by
  apply (odsStart_returns h).bind
  intro _ c₁ hpost
  obtain ⟨hstart, hidle, hopen⟩ := hpost
  have hcontroller : c₁.controller = c.controller := by rw [hstart]
  rw [← hcontroller] at hk ⊢
  apply returns_get.bind
  intro _ _ hget
  obtain ⟨rfl, rfl⟩ := hget
  rename_i c₁
  have hvisit : Returns (findPriv codec key fuel c₁.rootId) c₁ fun _ c' => Touches levels
      ((visitedIds key (treeOf done)).map fun i => L (toUnsigned i)) c₁.controller
      c'.controller := by
    rw [hopen.rootId]
    exact findPriv_touches hk hopen.shows' hopen.carries (nodup_treeOf hdone.distinct)
      (fun i _ => hidle.not_cached i) ((height_treeOf hdone.distinct).trans_lt hf)
  obtain ⟨r, c₂, hrun, ⟨_, hopen₂, hcount⟩, htouch⟩ :=
    (findOne_returns hopen hdone hf key).and hvisit
  have hk₂ : Anchored L levels c₂.controller :=
    (findPriv_stable (fun _ _ => trivial) (fun op _ => odsAccess_anchored op) key fuel _ c₁
      hk).post_of_ok hrun
  have hevicted : (c₂.cache.cacheItems.map Prod.fst).Perm (visitedIds key (treeOf done)) := by
    have hsub : c₂.cache.cacheItems.map Prod.fst ⊆ visitedIds key (treeOf done) := by
      intro i hi
      have hcached : Cached c₂ i := fun hnone => find?_eq_none.mp hnone hi
      exact ((hcount.cached i).mp hcached).resolve_right (hidle.not_cached i)
    apply (hopen₂.shows'.cache.nodup.subperm hsub).perm_of_length_le
    rw [List.length_map, hcount.items, hidle.nothing_cached,
      List.filter_eq_self.mpr fun i _ => by simpa using hidle.not_cached i]
    exact Nat.le_add_left _ _
  apply (returns_of_ok hrun).bind
  intro _ _ hpost
  obtain ⟨rfl, rfl⟩ := hpost
  rename_i c₂
  apply returns_get.bind
  intro _ _ hget
  obtain ⟨rfl, rfl⟩ := hget
  rename_i c₂
  apply (odsFinalize_touches hk₂ hopen₂.shows' _).bind
  intro _ c₃ hpost
  obtain ⟨reads, writes, hreads, hwrites, hfinish⟩ := hpost
  refine returns_pure ⟨reads, writes, c₂.cache.cacheItems.map Prod.fst, ?_, ?_, hevicted, ?_⟩
  · rw [hreads, hcount.readCount, hidle.readCount, dummyRounds]
    omega
  · rw [hwrites, hcount.writeCount, hidle.writeCount, dummyRounds]
    omega
  · rw [List.map_map]
    exact htouch.trans hfinish

theorem runRequests_anchored (fuel : ℕ) (insertPad findPad : ℤ → ℤ) (requests : List Request) :
    AnchoredStable L levels (runRequests codec fuel insertPad findPad requests) := by
  induction requests with
  | nil => exact stable_pure _
  | cons r requests ih =>
    have hrun : AnchoredStable L levels (r.run codec fuel insertPad findPad) := by
      cases r with
      | insert nodes => exact (insertNodes_anchored _ _ _).bind fun _ => stable_pure _
      | find key => exact find_anchored _ _ _
    apply hrun.bind
    intro answer
    exact ih.bind fun _ => stable_pure _

theorem serve_anchored (fuel : ℕ) (insertPad findPad : ℤ → ℤ) (requests : List Request) :
    AnchoredStable L levels (serve codec fuel insertPad findPad requests) := by
  apply dummyWrite_anchored.bind
  intro _
  exact runRequests_anchored _ _ _ _

section Serve

variable {bucketSize blockNumber : ℕ} {storage : Storage} {randGen : RandomForOram} {o : Oram}

theorem anchored_construct
    (hbuild : construct.run (blank bucketSize blockNumber storage randGen) = .ok ⟨⟩ o) :
    Anchored o.positionMap o.numLevels ⟨o, 0⟩ :=
  ⟨fun _ _ => rfl, rfl, (construct_fresh hbuild).wellFormed.max_eq⟩

/-- Whatever was inserted and searched for before, a search begins with the paths of the nodes that
it visits, at the leaves that their ids have had since the constructor ran: those that it drew for
ids below `block_number`, and 0 for all others. Each of these paths is accessed once more, in some
order, and all other paths are those of the dummies. -/
theorem find_shows_leaves (codec : Codec Node) (insertPad findPad : ℤ → ℤ)
    (hs : ∀ k, storage.fails k = false)
    (hbuild : construct.run (blank bucketSize blockNumber storage randGen) = .ok ⟨⟩ o)
    (order : HashOrder) {secretKey : Str} (hkey : 16 ≤ secretKey.length) {requests : List Request}
    (hins : Insertable (inserted requests)) (hf : (inserted requests).length < fuel) :
    ∃ answers c, (serve codec fuel insertPad findPad requests).run
        (Client.fresh secretKey order o) = .ok answers c ∧
      ∀ key, ∃ (r : Option Node) (c' : Client) (reads writes : List ℕ) (evicted : List ℤ),
        (OdictClient.find codec fuel findPad key).run c = .ok r c' ∧
        reads.length = (visitedIds key (treeOf (inserted requests))).length + 1 ∧
        writes.length = 1 ∧ evicted.Perm (visitedIds key (treeOf (inserted requests))) ∧
        callsOf c'.controller.oram = callsOf c.controller.oram ++
          (((visitedIds key (treeOf (inserted requests))).map fun i =>
              o.positionMap (toUnsigned i)) ++
            (reads ++ (evicted.map fun i => o.positionMap (toUnsigned i)) ++
              writes)).flatMap (pathCalls o.numLevels) := by
  obtain ⟨answers, c, hrun, ⟨V, hidle⟩, _⟩ :=
    serve_returns codec insertPad findPad hs hbuild order hkey hins hf
  have hk : Anchored o.positionMap o.numLevels c.controller :=
    (serve_anchored fuel insertPad findPad requests _ (anchored_construct hbuild)).post_of_ok hrun
  refine ⟨answers, c, hrun, ?_⟩
  intro key
  obtain ⟨r, c', hfind, reads, writes, evicted, hreads, hwrites, hevicted, htouch⟩ :=
    find_touches hk hidle hins hf findPad key
  exact ⟨r, c', reads, writes, evicted, hfind, hreads, hwrites, hevicted, htouch⟩

theorem find_shows_leaves_root :
    ∃ (o : Oram) (answers : List (Option Node)) (c : Client),
      construct.run (blank 1 2 .new ⟨0, fun k => k, 0⟩) = .ok ⟨⟩ o ∧
      (serve ObjectArchive.nodeCodec 4 id id [.insert threeNodes]).run
        (Client.fresh sampleKey .newestFirst o) = .ok answers c ∧
      ∃ (r : Option Node) (c' : Client) (rest : List StorageCall),
        (OdictClient.find ObjectArchive.nodeCodec 4 id [98]).run c = .ok r c' ∧
        callsOf c'.controller.oram =
          callsOf c.controller.oram ++ pathCalls o.numLevels (o.positionMap 1) ++ rest := by
  obtain ⟨o, hbuild⟩ := construct_small
  obtain ⟨answers, c, hrun, hshows⟩ := find_shows_leaves ObjectArchive.nodeCodec id id
    (fun _ => rfl) hbuild .newestFirst sampleKey_length threeNodes_insertable threeNodes_length
  obtain ⟨r, c', reads, writes, evicted, hfind, _, _, _, hcalls⟩ := hshows [98]
  have hvisited : visitedIds [98] (treeOf (inserted [.insert threeNodes])) = [1] := by
    simp [treeOf_threeNodes, visitedIds, visited]
  rw [hvisited, List.map_singleton, List.singleton_append, List.flatMap_cons,
    ← List.append_assoc] at hcalls
  exact ⟨o, answers, c, hbuild, hrun, r, c', _, hfind, hcalls⟩

end Serve

end SearchPattern
