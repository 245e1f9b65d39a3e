import SseSeal.ClientCache
import SseSeal.LruHistory

/-! The table of recent uses of the cache, which is kept beside the items: when the two list the
same ids, and that the cache then evicts what a map with a history would. -/
namespace CacheRecency

open Objects StateExcept OramAccessController ClientCache LruHistory

def fresh (maxSize : ℕ) (order : HashOrder) : Cache := ⟨maxSize, [], [], order, 0⟩

/-- The table of recent uses lists exactly the ids of the items, each once. -/
structure InStep (c : Cache) : Prop where
  nodup : c.lruTable.Nodup
  perm : c.lruTable.Perm (c.cacheItems.map Prod.fst)

variable {c c' : Cache} {id i back : ℤ} {item ret : Node}

theorem InStep.nodup_items (h : InStep c) : (c.cacheItems.map Prod.fst).Nodup :=
  h.perm.nodup_iff.mp h.nodup

theorem InStep.mem_iff (h : InStep c) : i ∈ c.lruTable ↔ (c.find? i).isSome := by
  rw [h.perm.mem_iff, ← not_iff_not, ← find?_eq_none, Bool.not_eq_true, Option.isSome_eq_false_iff,
    Option.isNone_iff_eq_none]

theorem inStep_fresh (maxSize : ℕ) (order : HashOrder) : InStep (fresh maxSize order) :=
  ⟨List.nodup_nil, .refl _⟩

theorem inStep_clear (c : Cache) : InStep c.clear := ⟨List.nodup_nil, .refl _⟩

theorem InStep.get (h : InStep c) (id : ℤ) : InStep (c.get id).2 := by
  cases hf : c.find? id with
  | none =>
    rw [get_miss hf]
    exact h
  | some node =>
    rw [get_hit hf]
    have hmem : id ∈ c.lruTable := h.mem_iff.mpr (by rw [hf]; rfl)
    have hperm := (List.perm_cons_erase hmem).symm
    exact ⟨hperm.nodup_iff.mpr h.nodup, hperm.trans h.perm⟩

theorem keys_filter (l : List (ℤ × Node)) (id : ℤ) :
    (l.filter (·.1 ≠ id)).map Prod.fst = (l.map Prod.fst).filter (· ≠ id) := by
  rw [List.filter_map]
  rfl

theorem place_lruTable (h : InStep c) (id : ℤ) (item : Node) :
    (c.place id item).lruTable = id :: c.lruTable.filter (· ≠ id) := by
  have herase : c.lruTable.erase id = c.lruTable.filter (· ≠ id) := by
    rw [h.nodup.erase_eq_filter]
    exact List.filter_congr fun i _ => by simp [bne, Bool.beq_eq_decide_eq]
  rw [Cache.place, ← herase]
  by_cases hmem : id ∈ c.lruTable
  · rw [if_pos ⟨hmem, h.mem_iff.mp hmem⟩]
  · rw [if_neg fun hboth => hmem hboth.1, List.erase_of_not_mem hmem]

theorem place_keys (c : Cache) (id : ℤ) (item : Node) :
    ((c.place id item).cacheItems.map Prod.fst).Perm
      (id :: (c.cacheItems.map Prod.fst).filter (· ≠ id)) := by
  rw [← keys_filter]
  exact (c.order.perm _ _).map Prod.fst

theorem InStep.place (h : InStep c) (id : ℤ) (item : Node) : InStep (c.place id item) := by
  have hlru := place_lruTable h id item
  constructor
  · rw [hlru, List.nodup_cons]
    exact ⟨by simp, h.nodup.filter _⟩
  · rw [hlru]
    exact ((h.perm.filter _).cons id).trans (place_keys c id item).symm

theorem InStep.evict (h : InStep c) (hne : c.cacheItems ≠ []) :
    ∃ lru back ret, c.lruTable = lru ++ [back] ∧ c.find? back = some ret ∧
      c.evict = some (ret, { c with
        cacheItems := c.cacheItems.filter (·.1 ≠ back)
        lruTable := lru }) ∧
      InStep { c with
        cacheItems := c.cacheItems.filter (·.1 ≠ back)
        lruTable := lru } := by
  have hlru : c.lruTable ≠ [] := by
    intro hnil
    have hlen := h.perm.length_eq
    rw [hnil, List.length_map] at hlen
    exact hne (List.length_eq_zero_iff.mp hlen.symm)
  obtain ⟨lru, back, heq⟩ : ∃ lru back, c.lruTable = lru ++ [back] :=
    ⟨_, _, (List.dropLast_append_getLast hlru).symm⟩
  have hmem : back ∈ c.lruTable := by simp [heq]
  obtain ⟨ret, hret⟩ := Option.isSome_iff_exists.mp (h.mem_iff.mp hmem)
  refine ⟨lru, back, ret, heq, hret, ?_, ?_⟩
  · simp [Cache.evict, heq, hret]
  · have hnodup := h.nodup
    rw [heq] at hnodup
    have hfilter : c.lruTable.filter (· ≠ back) = lru := by
      have hnot : ∀ i ∈ lru, decide (i ≠ back) = true := by
        intro i hi
        rw [decide_eq_true_eq]
        rintro rfl
        exact List.disjoint_of_nodup_append hnodup hi (List.mem_singleton_self i)
      rw [heq, List.filter_append, List.filter_eq_self.mpr hnot]
      simp
    constructor
    · exact hnodup.of_append_left
    · have hperm := h.perm.filter fun i => decide (i ≠ back)
      rw [hfilter, ← keys_filter] at hperm
      exact hperm

theorem InStep.put (h : InStep c) (id : ℤ) (item : Node) :
    ∃ r, c.put id item = some r ∧ InStep r.2 := by
  have hplace := h.place id item
  rw [Cache.put]
  by_cases hfull : (c.place id item).maxSize < (c.place id item).cacheItems.length
  · have hne : (c.place id item).cacheItems ≠ [] := List.ne_nil_of_length_pos (by omega)
    obtain ⟨lru, back, ret, _, _, hevict, hstep⟩ := hplace.evict hne
    rw [if_pos hfull, hevict]
    exact ⟨_, rfl, hstep⟩
  · rw [if_neg hfull]
    exact ⟨_, rfl, hplace⟩

theorem drawTags_keys {items : List (ℤ × Node)} {tags : ℤ → ℤ} {k k' : Controller}
    {r : List (ℤ × Node) × (ℤ → ℤ)} (h : (drawTags items tags).run k = .ok r k') :
    r.1.map Prod.fst = items.map Prod.fst := by
  induction items generalizing tags k r with
  | nil =>
    cases h
    rfl
  | cons e items ih =>
    obtain ⟨tag, k₁, _, h⟩ := bind_ok h
    obtain ⟨r', k₂, hrest, h⟩ := bind_ok h
    cases h
    rw [List.map_cons, List.map_cons, ih hrest]

theorem updatePos_keys {rootId : ℤ} {k k' : Controller} {r : ℤ × Cache}
    (h : (updatePos c rootId).run k = .ok r k') :
    r.2.lruTable = c.lruTable ∧ r.2.cacheItems.map Prod.fst = c.cacheItems.map Prod.fst := by
  obtain ⟨drawn, k₁, hdraw, h⟩ := bind_ok h
  cases h
  refine ⟨rfl, ?_⟩
  rw [← drawTags_keys hdraw, List.map_map]
  rfl

inductive CacheOp
  | put (id : ℤ) (item : Node)
  | get (id : ℤ)
  | updatePos (rootId : ℤ)
  | pop
  | clear

/-- One call. A call of `update_pos` that throws has retagged some of the items. -/
inductive CacheStep : Cache → CacheOp → Cache → Prop
  | put {c c' : Cache} {id : ℤ} {item ret : Node} (h : c.put id item = some (ret, c')) :
      CacheStep c (.put id item) c'
  | get (c : Cache) (id : ℤ) : CacheStep c (.get id) (c.get id).2
  | updatePos {c : Cache} {rootId : ℤ} {k k' : Controller} {r : ℤ × Cache}
      (h : (updatePos c rootId).run k = .ok r k') : CacheStep c (.updatePos rootId) r.2
  | updatePosThrows {c : Cache} {rootId : ℤ} {k k' : Controller} {e : AccessError}
      {items : List (ℤ × Node)} (h : (updatePos c rootId).run k = .error e k')
      (hkeys : items.map Prod.fst = c.cacheItems.map Prod.fst) :
      CacheStep c (.updatePos rootId) { c with cacheItems := items }
  | pop {c : Cache} (h : c.cacheItems ≠ []) : CacheStep c .pop c.pop
  | clear (c : Cache) : CacheStep c .clear c.clear

/-- Calls one after the other, each with the cache that it leaves. -/
inductive CacheRun : Cache → List (CacheOp × Cache) → Prop
  | nil (c : Cache) : CacheRun c []
  | cons {c c' : Cache} {op : CacheOp} {run : List (CacheOp × Cache)} (hstep : CacheStep c op c')
      (hrun : CacheRun c' run) : CacheRun c ((op, c') :: run)

theorem InStep.step {op : CacheOp} (h : InStep c) (hstep : CacheStep c op c') (hop : op ≠ .pop) :
    InStep c' := by
  cases hstep with
  | put hput =>
    obtain ⟨r, hr, hin⟩ := h.put _ _
    rw [hput] at hr
    cases hr
    exact hin
  | get id => exact h.get id
  | updatePos hrun =>
    obtain ⟨hlru, hkeys⟩ := updatePos_keys hrun
    exact ⟨hlru ▸ h.nodup, by rw [hlru, hkeys]; exact h.perm⟩
  | updatePosThrows _ hkeys => exact ⟨h.nodup, by rw [hkeys]; exact h.perm⟩
  | pop => exact absurd rfl hop
  | clear => exact inStep_clear c

/-- `pop` removes an item and leaves its id in the table. -/
theorem not_inStep_pop (h : InStep c) (hne : c.cacheItems ≠ []) : ¬ InStep c.pop := by
  intro hpop
  have hlen := h.perm.length_eq
  have hlen' := hpop.perm.length_eq
  have hpos := List.length_pos_iff.mpr hne
  rw [Cache.pop, List.length_map, List.length_tail] at hlen'
  rw [List.length_map] at hlen
  dsimp only at hlen'
  omega

/-- The table of recent uses lists the ids of the items after every call of a run, and no put can
fail to find what it evicts, iff the run has no call of `pop`. -/
theorem inStep_iff_no_pop (maxSize : ℕ) (order : HashOrder) {run : List (CacheOp × Cache)}
    (hrun : CacheRun (fresh maxSize order) run) :
    (∀ e ∈ run, InStep e.2 ∧ ∀ id item, (e.2.put id item).isSome) ↔ ∀ e ∈ run, e.1 ≠ .pop := by
  have hstart := inStep_fresh maxSize order
  generalize fresh maxSize order = c at hrun hstart
  induction hrun with
  | nil c => simp
  | @cons c c' op run hstep hrun ih =>
    constructor
    · intro h e he
      obtain ⟨hin, _⟩ := h _ List.mem_cons_self
      rcases List.mem_cons.mp he with rfl | he
      · rintro rfl
        cases hstep with
        | pop hne => exact not_inStep_pop hstart hne hin
      · exact (ih hin).mp (fun e he => h e (List.mem_cons_of_mem _ he)) e he
    · intro h
      have hin := hstart.step hstep (h _ List.mem_cons_self)
      have hrest := (ih hin).mpr fun e he => h e (List.mem_cons_of_mem _ he)
      intro e he
      rcases List.mem_cons.mp he with rfl | he
      · refine ⟨hin, ?_⟩
        intro id item
        obtain ⟨r, hr, _⟩ := hin.put id item
        rw [hr]
        rfl
      · exact hrest e he

theorem inStep_put_get : ∃ log : List (CacheOp × Cache),
    CacheRun (fresh 1 .newestFirst) log ∧ log.length = 2 ∧
      ∀ e ∈ log, InStep e.2 ∧ ∀ id item, (e.2.put id item).isSome := by
  have hrun : CacheRun (fresh 1 .newestFirst)
      [(.put 1 (.ofTag 1 5), ⟨1, [(1, .ofTag 1 5)], [1], .newestFirst, 1⟩),
        (.get 1, ⟨1, [(1, .ofTag 1 5)], [1], .newestFirst, 1⟩)] :=
    .cons (.put rfl) (.cons (.get _ _) (.nil _))
  refine ⟨_, hrun, rfl, (inStep_iff_no_pop 1 .newestFirst hrun).mpr ?_⟩
  intro e he
  rcases List.mem_cons.mp he with rfl | he
  · exact CacheOp.noConfusion
  · rw [List.mem_singleton.mp he]
    exact CacheOp.noConfusion

/-- After a `pop` the cache for one item has a stale id in its table, and the second put finds no
item to evict. -/
theorem put_after_pop_fails :
    ∃ c, CacheRun (fresh 1 .newestFirst)
        [(.put 1 (.ofTag 1 5), ⟨1, [(1, .ofTag 1 5)], [1], .newestFirst, 1⟩),
          (.pop, ⟨1, [], [1], .newestFirst, 1⟩), (.put 2 (.ofTag 2 6), c)] ∧
      ¬ InStep c ∧ c.put 3 (.ofTag 3 7) = none := by
  refine ⟨⟨1, [(2, .ofTag 2 6)], [2, 1], .newestFirst, 2⟩,
    .cons (.put rfl) (.cons (.pop (List.cons_ne_nil _ _)) (.cons (.put rfl) (.nil _))), ?_, rfl⟩
  intro h
  exact absurd h.perm.length_eq (by decide)

def apply (c : Cache) : Op ℤ Node → Option (Option Node × Cache)
  | .put id item => (c.put id item).map fun r => (some r.1, r.2)
  | .get id => some (some (c.get id).1, (c.get id).2)
  | .clear => some (none, c.clear)

def applyAll (c : Cache) : List (Op ℤ Node) → Option (List (Option Node) × Cache)
  | [] => some ([], c)
  | op :: ops => do
    let (out, c) ← apply c op
    let (outs, c) ← applyAll c ops
    return (out :: outs, c)

/-- The node that the cache returns for a result of the map: the node of the id 0 where there is
none. -/
def returned (result : Option (Option Node)) : Option Node :=
  result.map fun node => node.getD (.ofTag 0 (-1))

variable {h : List (Event ℤ Node)}

/-- The cache holds what the history says, and its table lists the ids by their last use, the most
recent first. -/
structure Tracks (c : Cache) (h : List (Event ℤ Node)) : Prop where
  inStep : InStep c
  find : ∀ i, c.find? i = value h i
  recent : c.lruTable.Pairwise fun a b => lastUse h b < lastUse h a

theorem Tracks.mem_iff (ht : Tracks c h) : i ∈ c.lruTable ↔ i ∈ keys h := by
  rw [ht.inStep.mem_iff, ht.find, value_isSome]

theorem Tracks.length_eq (ht : Tracks c h) : c.cacheItems.length = (keys h).card := by
  have hkeys : c.lruTable.toFinset = keys h := by
    ext i
    rw [List.mem_toFinset, ht.mem_iff]
  rw [← hkeys, List.toFinset_card_of_nodup ht.inStep.nodup, ht.inStep.perm.length_eq,
    List.length_map]

theorem recent_cons {lru : List ℤ} {e : Event ℤ Node} (hnot : id ∉ lru)
    (hrecent : lru.Pairwise fun a b => lastUse h b < lastUse h a)
    (he : ∀ i, lastUse (e :: h) i = if i = id then h.length + 1 else lastUse h i) :
    (id :: lru).Pairwise fun a b => lastUse (e :: h) b < lastUse (e :: h) a := by
  have hold : ∀ i ∈ lru, lastUse (e :: h) i = lastUse h i := by
    intro i hi
    have hne : i ≠ id := fun heq => hnot (heq ▸ hi)
    rw [he, if_neg hne]
  rw [List.pairwise_cons]
  constructor
  · intro i hi
    rw [hold i hi, he, if_pos rfl]
    exact Nat.lt_succ_of_le (lastUse_le h i)
  · refine hrecent.imp_of_mem ?_
    intro a b ha hb hlt
    rw [hold a ha, hold b hb]
    exact hlt

theorem Tracks.get (ht : Tracks c h) (id : ℤ) : Tracks (c.get id).2 (.get id :: h) := by
  have hstep := ht.inStep.get id
  cases hf : c.find? id with
  | none =>
    have hnot : id ∉ c.lruTable := by
      rw [ht.inStep.mem_iff, hf]
      exact Bool.false_ne_true
    rw [get_miss hf] at hstep ⊢
    refine ⟨hstep, ht.find, ?_⟩
    exact (List.pairwise_cons.mp (recent_cons hnot ht.recent fun _ => rfl)).2
  | some node =>
    rw [get_hit hf] at hstep ⊢
    have hnot : id ∉ c.lruTable.erase id := ht.inStep.nodup.not_mem_erase
    exact ⟨hstep, ht.find, recent_cons hnot (ht.recent.sublist List.erase_sublist) fun _ => rfl⟩

theorem Tracks.place (ht : Tracks c h) (id : ℤ) (item : Node) :
    Tracks (c.place id item) (.put id item none :: h) := by
  refine ⟨ht.inStep.place id item, ?_, ?_⟩
  · intro i
    have hkept : (none : Option ℤ) ≠ some i := nofun
    rw [find?_place ht.inStep.nodup_items, ht.find, value, if_neg hkept]
  · have hnot : id ∉ c.lruTable.filter (· ≠ id) := by simp
    rw [place_lruTable ht.inStep]
    exact recent_cons hnot (ht.recent.filter _) fun _ => rfl

theorem find?_filter_ne (l : List (ℤ × Node)) (hi : i ≠ back) :
    ((l.filter (·.1 ≠ back)).find? (·.1 = i)).map Prod.snd = (l.find? (·.1 = i)).map Prod.snd := by
  rw [List.find?_filter]
  congr 2
  funext e
  by_cases he : e.1 = i
  · simp [he, hi]
  · simp [he]

/-- An eviction removes the id at the end of the table, which no other id of the cache has been
used before. -/
theorem Tracks.evict (ht : Tracks c (.put id item none :: h)) (hne : c.cacheItems ≠ []) :
    ∃ back ret c', c.evict = some (ret, c') ∧ c'.maxSize = c.maxSize ∧
      value (.put id item none :: h) back = some ret ∧ back ∈ insert id (keys h) ∧
      (∀ i ∈ insert id (keys h), i ≠ back →
        lastUse (.put id item none :: h) back < lastUse (.put id item none :: h) i) ∧
      Tracks c' (.put id item (some back) :: h) := by
  obtain ⟨lru, back, ret, hlru, hret, hevict, hstep⟩ := ht.inStep.evict hne
  have hrecent := ht.recent
  rw [hlru, List.pairwise_append] at hrecent
  refine ⟨back, ret, _, hevict, rfl, (ht.find back).symm.trans hret, ?_, ?_, hstep, ?_, hrecent.1⟩
  · rw [← keys_put, ← ht.mem_iff, hlru]
    simp
  · intro i hi hne
    rw [← keys_put, ← ht.mem_iff, hlru] at hi
    have hin : i ∈ lru := by
      rcases List.mem_append.mp hi with hi | hi
      · exact hi
      · exact absurd (List.mem_singleton.mp hi) hne
    exact hrecent.2.2 i hin back (List.mem_singleton_self _)
  · intro i
    have hvalue := ht.find i
    by_cases hi : i = back
    · subst hi
      rw [value, if_pos rfl, find?_eq_none, keys_filter]
      simp
    · have hkept : none ≠ some i := (Option.some_ne_none i).symm
      have hkept' : some back ≠ some i := fun heq => hi (Option.some.inj heq).symm
      rw [value, if_neg hkept] at hvalue
      rw [value, if_neg hkept', ← hvalue]
      exact find?_filter_ne c.cacheItems hi

theorem Tracks.apply (ht : Tracks c h) (op : Op ℤ Node) :
    ∃ result c' h', CacheRecency.apply c op = some (returned result, c') ∧
      Step c.maxSize h op result h' ∧ c'.maxSize = c.maxSize ∧ Tracks c' h' := by
  cases op with
  | get id =>
    have hsize : (c.get id).2.maxSize = c.maxSize := by
      rw [Cache.get]
      split <;> rfl
    have hresult : (c.get id).1 = (value h id).getD (.ofTag 0 (-1)) := by
      rw [← ht.find]
      cases hf : c.find? id with
      | none => rw [get_miss hf, Option.getD_none]
      | some node => rw [get_hit hf, Option.getD_some]
    refine ⟨_, _, _, ?_, .get id, hsize, ht.get id⟩
    rw [CacheRecency.apply, hresult]
    rfl
  | clear =>
    refine ⟨none, c.clear, _, rfl, .clear, rfl, inStep_clear c, ?_, ?_⟩
    · intro i
      rfl
    · exact List.Pairwise.nil
  | put id item =>
    have hplace := ht.place id item
    have hlen := hplace.length_eq
    rw [keys_put] at hlen
    rw [CacheRecency.apply, Cache.put]
    by_cases hfull : c.maxSize < (insert id (keys h)).card
    · have hne : (c.place id item).cacheItems ≠ [] := List.ne_nil_of_length_pos (by omega)
      obtain ⟨back, ret, c', hevict, hsize, hvalue, hback, hleast, htracks⟩ := hplace.evict hne
      refine ⟨_, c', _, ?_, .evict id item back hfull hback hleast, hsize, htracks⟩
      have hfull' : (c.place id item).maxSize < (c.place id item).cacheItems.length := by
        rw [hlen]
        exact hfull
      simp only [if_pos hfull', hevict, hvalue]
      rfl
    · have hfit : ¬ (c.place id item).maxSize < (c.place id item).cacheItems.length := by
        rw [hlen]
        exact hfull
      refine ⟨_, c.place id item, _, ?_, .put id item (not_lt.mp hfull), rfl, hplace⟩
      simp only [if_neg hfit]
      rfl

theorem Tracks.applyAll {maxSize : ℕ} (ht : Tracks c h) (hsize : c.maxSize = maxSize)
    (ops : List (Op ℤ Node)) :
    ∃ results c' h', CacheRecency.applyAll c ops = some (results.map returned, c') ∧
      Run maxSize h ops results h' ∧ Tracks c' h' := by
  induction ops generalizing c h with
  | nil => exact ⟨[], c, h, rfl, .nil h, ht⟩
  | cons op ops ih =>
    obtain ⟨result, c₁, h₁, hop, hstep, hsize₁, ht₁⟩ := ht.apply op
    rw [hsize] at hstep hsize₁
    obtain ⟨results, c', h', hops, hrun, ht'⟩ := ih ht₁ hsize₁
    refine ⟨result :: results, c', h', ?_, .cons hstep hrun, ht'⟩
    simp [CacheRecency.applyAll, hop, hops]

/-- The results of the calls are those of the map that evicts the key used least recently, and the
cache holds what that map does, in at most `maxSize` items. -/
theorem applyAll_lru (maxSize : ℕ) (order : HashOrder) (ops : List (Op ℤ Node)) :
    ∃ results c h, applyAll (fresh maxSize order) ops = some (results.map returned, c) ∧
      Run maxSize [] ops results h ∧
      (∀ results' h', Run maxSize [] ops results' h' → results' = results) ∧
      (∀ id, c.find? id = value h id) ∧ c.cacheItems.length ≤ maxSize := by
  have ht : Tracks (fresh maxSize order) [] :=
    ⟨inStep_fresh maxSize order, fun _ => rfl, List.Pairwise.nil⟩
  obtain ⟨results, c, h, hops, hrun, ht'⟩ := ht.applyAll rfl ops
  refine ⟨results, c, h, hops, hrun, fun _ _ hrun' => hrun'.unique hrun, ht'.find, ?_⟩
  rw [ht'.length_eq]
  exact hrun.card_le (Nat.zero_le _)

-- the first item is got before the third is put, so the second is evicted
example :
    (applyAll (fresh 2 .newestFirst) [.put 1 (.ofTag 1 5), .put 2 (.ofTag 2 6), .get 1,
      .put 3 (.ofTag 3 7), .get 2]).map Prod.fst =
        some [some (.ofTag 0 (-1)), some (.ofTag 0 (-1)), some (.ofTag 1 5), some (.ofTag 2 6),
          some (.ofTag 0 (-1))] := by
  rfl

end CacheRecency
