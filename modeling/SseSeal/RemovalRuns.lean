import SseSeal.NodeRemoval

/-! Runs of insertions, searches and removals. As long as every removal starts from a tree in which
the code handles it, the dictionary is the map of the keys that were inserted and not removed. -/
namespace RemovalRuns

open Bytes Objects StateExcept StringCipher AvlTree BinaryTree OramReadPathEviction ClientCache
open OdictClient ClientSession ClientTree Dictionary BalancedDictionary NodeRemoval

inductive Call where
  | insert (nodes : List Node)
  | find (key : Str)
  | remove (key : Str)

section Runs

variable (codec : Codec Node) (unfilled : Unfilled) (fuel : ℕ) (pad : ℤ → ℤ)

def Call.run : Call → ClientM (Option Node)
  | insert nodes => do
    insertNodes codec fuel pad nodes
    return none
  | find key => OdictClient.find codec fuel pad key
  | remove key => do
    removeKeys codec unfilled fuel pad [key]
    return none

def runCalls : List Call → ClientM (List (Option Node))
  | [] => return []
  | call :: calls => do
    let answer ← call.run codec unfilled fuel pad
    let answers ← runCalls calls
    return answer :: answers

def serveCalls (calls : List Call) : ClientM (List (Option Node)) := do
  initDummyData codec
  runCalls codec unfilled fuel pad calls

end Runs

abbrev Content := Str → Option Str

/-- A key keeps the data it was first inserted with, until it is removed. -/
def Call.content : Call → Content → Content
  | insert nodes, m =>
    nodes.foldl (fun m n k => if k = n.key then some ((m k).getD n.data) else m k) m
  | find _, m => m
  | remove key, m => fun k => if k = key then none else m k

def contentOf (calls : List Call) (m : Content) : Content :=
  calls.foldl (fun m call => call.content m) m

def nothing : Content := fun _ => none

def Call.tree : Call → BinaryTree Entry → BinaryTree Entry
  | insert nodes, t => nodes.foldl (fun t n => insertEntry (entryOf n) t) t
  | find _, t => t
  | remove key, t => removed key t

def treeOf (calls : List Call) (t : BinaryTree Entry) : BinaryTree Entry :=
  calls.foldl (fun t call => call.tree t) t

/-- Every removal starts from a tree in which the code handles it. -/
def AllClear (unfilled : Unfilled) (calls : List Call) (t : BinaryTree Entry) : Prop :=
  ∀ before key after, calls = before ++ .remove key :: after →
    Clear unfilled key (treeOf before t)

def Call.nodes : Call → List Node
  | insert nodes => nodes
  | find _ => []
  | remove _ => []

def inserted (calls : List Call) : List Node := calls.flatMap Call.nodes

/-- A balanced search tree whose nodes have ids of the nodes inserted so far. -/
structure Sound (done : List Node) (t : BinaryTree Entry) : Prop where
  nodup : (ids t).Nodup
  ordered : Ordered t
  balanced : AvlTree.Balanced t
  issued : ∀ i ∈ ids t, i ∈ done.map Node.id

variable {codec : Codec Node} {unfilled : Unfilled} {fuel : ℕ} {c c' : Client}
  {V V' : ℤ → Option Node} {t : BinaryTree Entry} {done nodes : List Node} {n : Node} {key : Str}

theorem Sound.nil : Sound [] .nil := ⟨List.nodup_nil, List.Pairwise.nil, trivial, nofun⟩

theorem Sound.height_le (h : Sound done t) : t.height ≤ done.length := by
  have hlen := (h.nodup.subperm h.issued).length_le
  rw [ids, List.length_map, length_entries, List.length_map] at hlen
  exact (height_le_numNodes _).trans hlen

theorem Sound.insert (h : Sound done t) (hd : ((done ++ [n]).map Node.id).Nodup) :
    Sound (done ++ [n]) (insertEntry (entryOf n) t) := by
  rw [List.map_append, List.nodup_append] at hd
  have hnew : (entryOf n).2.id ∉ ids t := fun hi =>
    hd.2.2 _ (h.issued _ hi) _ (List.mem_singleton.mpr rfl) rfl
  refine ⟨nodup_insertEntry h.nodup hnew, ordered_insert h.ordered,
    (balanced_insert h.balanced).1, ?_⟩
  intro i hi
  rw [List.map_append, List.mem_append]
  rcases mem_ids_insertEntry hi with rfl | hi
  · exact Or.inr (List.mem_singleton.mpr rfl)
  · exact Or.inl (h.issued i hi)

theorem Sound.removed (h : Sound done t) (hclear : Clear unfilled key t) :
    Sound done (removed key t) :=
  ⟨nodup_removed hclear h.nodup, ordered_removed hclear h.ordered,
    balanced_removed hclear h.balanced, fun i hi => h.issued i (mem_ids_removed hclear hi)⟩

theorem dataOf_insertEntry (ho : Ordered t) (n : Node) : dataOf (insertEntry (entryOf n) t) =
    fun k => if k = n.key then some ((dataOf t k).getD n.data) else dataOf t k := by
  funext k
  rw [dataOf, insertEntry, lookup_insert ho, entryOf]
  by_cases hk : k = n.key
  · subst hk
    rw [if_pos rfl, if_pos rfl, dataOf]
    cases lookup n.key t <;> rfl
  · rw [if_neg hk, if_neg hk, dataOf]

structure Working (codec : Codec Node) (t : BinaryTree Entry) (c : Client)
    (V : ℤ → Option Node) : Prop where
  shows' : Shows codec c V
  carries : Carries V (Cached c) t
  rootId : c.rootId = rootOf t

structure Resting (codec : Codec Node) (t : BinaryTree Entry) (c : Client)
    (V : ℤ → Option Node) : Prop extends Working codec t c V where
  nothing_cached : c.cache.cacheItems = []

theorem start_returns (h : Resting codec t c V) :
    Returns odsStart c fun _ c' => Working codec t c' V := by
  apply returns_modify.imp
  intro _ c₁ hstart
  subst hstart
  refine ⟨h.shows'.clear h.nothing_cached, carries_congr (fun i _ => ⟨rfl, ?_⟩) h.carries, h.rootId⟩
  simp [Cached, Cache.find?, Cache.clear, h.nothing_cached]

theorem fresh_resting {bucketSize blockNumber : ℕ} {storage : Storage} {randGen : RandomForOram}
    {o : Oram} (hs : ∀ k, storage.fails k = false)
    (hbuild : construct.run (blank bucketSize blockNumber storage randGen) = .ok ⟨⟩ o)
    (order : HashOrder) {secretKey : Str} (hkey : 16 ≤ secretKey.length) :
    Returns (initDummyData codec) (Client.fresh secretKey order o) fun _ c =>
      ∃ V, Resting codec .nil c V := by
  apply (fresh_idle hs hbuild order hkey).imp
  intro _ c hpost
  obtain ⟨⟨V, hidle⟩, _⟩ := hpost
  exact ⟨V, ⟨hidle.shows', trivial, hidle.rootId⟩, hidle.nothing_cached⟩

theorem finish_returns (h : Working codec t c V) (pad : ℤ) :
    Returns (odsFinalize codec pad) c fun _ c' => ∃ V', Resting codec t c' V' := by
  apply (odsFinalize_returns h.shows' pad).imp
  intro _ c₁ hpost
  obtain ⟨tags, hfin⟩ := hpost
  have hnone : ∀ i, ¬ Cached c₁ i := by
    intro i
    simp [Cached, find?_eq_none, hfin.nothing_cached]
  exact ⟨_, ⟨hfin.shows', carries_settled tags h.carries hnone, hfin.rootId.trans h.rootId⟩,
    hfin.nothing_cached⟩

theorem session_returns {t' : BinaryTree Entry} {body : ClientM PUnit} (h : Resting codec t c V)
    (hbody : ∀ c₁, Working codec t c₁ V →
      Returns body c₁ fun _ c' => ∃ V', Working codec t' c' V') (pad : ℤ → ℤ) :
    Returns (do
      odsStart
      body
      odsFinalize codec (pad (← get).nodeCount)) c fun _ c' => ∃ V', Resting codec t' c' V' := by
  apply (start_returns h).bind
  intro _ c₁ hwork
  apply (hbody c₁ hwork).bind
  intro _ c₂ hpost
  obtain ⟨V₂, hwork₂⟩ := hpost
  apply returns_get.bind
  intro _ c₃ hget
  obtain ⟨rfl, rfl⟩ := hget
  exact finish_returns hwork₂ _

theorem findOne_returns (h : Working codec t c V) (hs : Sound done t) (hf : done.length < fuel)
    (key : Str) : Returns (findPriv codec key fuel c.rootId) c fun r c' =>
      Finds key (dataOf t key) r ∧ Working codec t c' V := by
  rw [h.rootId]
  apply (findPriv_returns h.shows' h.carries hs.nodup (hs.height_le.trans_lt hf)).imp
  intro r c₁ hpost
  obtain ⟨hr, hev, hcarries, _⟩ := hpost
  exact ⟨hr, hev.shows', hcarries, hev.rootId.trans h.rootId⟩

theorem removeOne_returns (h : Working codec t c V) (hs : Sound done t) (hf : done.length < fuel)
    (hclear : Clear unfilled key t) :
    Returns (do
      let _ ← removePriv codec unfilled key fuel (← get).rootId) c fun _ c' =>
        ∃ V', Working codec (removed key t) c' V' := by
  apply returns_get.bind
  intro _ c₁ hget
  obtain ⟨rfl, rfl⟩ := hget
  rw [h.rootId]
  apply (removePriv_returns hclear h.shows' h.carries hs.nodup hs.balanced
    (hs.height_le.trans_lt hf)).bind
  intro r c₂ hpost
  obtain ⟨⟨V₂, hev, hcarries⟩, _, _⟩ := hpost
  refine returns_pure ⟨V₂, hev.shows', hcarries, ?_⟩
  rw [hev.rootId, h.rootId, rootOf_removed hclear]

theorem insertOne_returns (h : Working codec t c V) (hs : Sound done t)
    (hins : Insertable (done ++ [n])) (hf : done.length < fuel) :
    Returns (do
      let res ← insertNode codec fuel n
      modify fun c => { c with rootId := res.id }) c fun _ c' =>
        ∃ V', Working codec (insertEntry (entryOf n) t) c' V' := by
  have hin : n ∈ done ++ [n] := List.mem_append.mpr (Or.inr (List.mem_singleton.mpr rfl))
  obtain ⟨hleaf, hv⟩ := hins.leaf hin
  have hdistinct := hins.distinct
  rw [List.map_append, List.nodup_append] at hdistinct
  have hnew : n.id ∉ ids t := fun hi =>
    hdistinct.2.2 _ (hs.issued _ hi) _ (List.mem_singleton.mpr rfl) rfl
  apply (insertStep_returns hleaf hv h.shows' h.carries h.rootId hs.nodup hnew
    (hs.height_le.trans_lt hf)).imp
  intro _ c₁ hpost
  obtain ⟨V₁, hshows, hcarries, hroot, _⟩ := hpost
  exact ⟨V₁, hshows, hcarries, hroot⟩

theorem insertAll_returns (h : Working codec t c V) (hs : Sound done t)
    (hins : Insertable (done ++ nodes)) (hf : (done ++ nodes).length ≤ fuel) :
    Returns (nodes.forM fun node => do
      let res ← insertNode codec fuel node
      modify fun c => { c with rootId := res.id }) c fun _ c' =>
        ∃ V', Working codec ((Call.insert nodes).tree t) c' V' := by
  induction nodes generalizing t c V done with
  | nil => exact returns_pure ⟨V, h⟩
  | cons n nodes ih =>
    rw [List.append_cons] at hins hf
    have hpre := hins.sub (List.sublist_append_left _ _)
    have hlen : done.length < fuel := by
      rw [List.length_append, List.length_append, List.length_singleton] at hf
      omega
    apply (insertOne_returns h hs hpre hlen).bind
    intro _ c₁ hpost
    obtain ⟨V₁, h₁⟩ := hpost
    exact ih h₁ (hs.insert hpre.distinct) hins hf

variable {call : Call} {calls : List Call} {pad : ℤ → ℤ}

theorem call_sound (hs : Sound done t) (hins : Insertable (done ++ call.nodes))
    (hclear : ∀ key, call = .remove key → Clear unfilled key t) :
    Sound (done ++ call.nodes) (call.tree t) ∧ dataOf (call.tree t) = call.content (dataOf t) := by
  cases call with
  | insert nodes =>
    change Insertable (done ++ nodes) at hins
    change Sound (done ++ nodes) _ ∧ _
    induction nodes generalizing t done with
    | nil =>
      rw [List.append_nil]
      exact ⟨hs, rfl⟩
    | cons n nodes ih =>
      rw [List.append_cons] at hins ⊢
      have hpre := hins.sub (List.sublist_append_left _ _)
      obtain ⟨hsound, hdata⟩ := ih (hs.insert hpre.distinct) nofun hins
      refine ⟨hsound, hdata.trans ?_⟩
      rw [dataOf_insertEntry hs.ordered]
      rfl
  | find key =>
    rw [Call.nodes, List.append_nil]
    exact ⟨hs, rfl⟩
  | remove key =>
    rw [Call.nodes, List.append_nil]
    have hkey := hclear key rfl
    exact ⟨hs.removed hkey, funext (dataOf_removed hkey hs.ordered)⟩

theorem call_returns (h : Resting codec t c V) (hs : Sound done t)
    (hins : Insertable (done ++ call.nodes)) (hf : (done ++ call.nodes).length < fuel)
    (hclear : ∀ key, call = .remove key → Clear unfilled key t) :
    Returns (call.run codec unfilled fuel pad) c fun answer c' =>
      (∃ V', Resting codec (call.tree t) c' V') ∧
        ∀ key, call = .find key → Finds key (dataOf t key) answer := by
  cases call with
  | insert nodes =>
    have hrun : Returns (insertNodes codec fuel pad nodes) c fun _ c' =>
        ∃ V', Resting codec ((Call.insert nodes).tree t) c' V' := by
      apply session_returns h
      intro c₁ hwork
      exact insertAll_returns hwork hs hins hf.le
    apply hrun.bind
    intro _ c₁ hrest
    exact returns_pure ⟨hrest, nofun⟩
  | find key =>
    rw [Call.nodes, List.append_nil] at hf
    apply (start_returns h).bind
    intro _ c₁ hwork
    apply returns_get.bind
    intro _ c₂ hget
    obtain ⟨rfl, rfl⟩ := hget
    apply (findOne_returns hwork hs hf key).bind
    intro r c₃ hpost
    obtain ⟨hr, hwork₃⟩ := hpost
    apply returns_get.bind
    intro _ c₄ hget
    obtain ⟨rfl, rfl⟩ := hget
    apply (finish_returns hwork₃ _).bind
    intro _ c₅ hrest
    refine returns_pure ⟨hrest, ?_⟩
    intro k hk
    cases hk
    exact hr
  | remove key =>
    rw [Call.nodes, List.append_nil] at hf
    have hrun : Returns (removeKeys codec unfilled fuel pad [key]) c fun _ c' =>
        ∃ V', Resting codec (removed key t) c' V' := by
      apply session_returns h
      intro c₁ hwork
      apply (removeOne_returns hwork hs hf (hclear key rfl)).bind
      intro _ c₂ hpost
      exact returns_pure hpost
    apply hrun.bind
    intro _ c₁ hrest
    exact returns_pure ⟨hrest, nofun⟩

theorem runCalls_cons {answer : Option Node} {answers : List (Option Node)} {c'' : Client}
    (hcall : (call.run codec unfilled fuel pad).run c = .ok answer c')
    (hrest : (runCalls codec unfilled fuel pad calls).run c' = .ok answers c'') :
    (runCalls codec unfilled fuel pad (call :: calls)).run c = .ok (answer :: answers) c'' :=
  (run_bind_ok hcall).trans (run_bind_ok hrest)

/-- The only key of a dictionary stays. -/
theorem removeLeaf_returns {e : Entry} (h : Resting codec (.node e .nil .nil) c V) :
    Returns (removeKeys codec unfilled (fuel + 1) pad [e.1]) c fun _ c' =>
      ∃ V', Resting codec (.node e .nil .nil) c' V' := by
  apply session_returns h
  intro c₁ hwork
  have hone : Returns (do
      let _ ← removePriv codec unfilled e.1 (fuel + 1) (← get).rootId) c₁ fun _ c' =>
        Working codec (.node e .nil .nil) c' V := by
    apply returns_get.bind
    intro _ c₂ hget
    obtain ⟨rfl, rfl⟩ := hget
    rw [hwork.rootId]
    apply (removePriv_leaf hwork.shows' hwork.carries).bind
    intro _ c₃ hpost
    obtain ⟨hev, hcarries⟩ := hpost
    exact returns_pure ⟨hev.shows', hcarries, hev.rootId.trans hwork.rootId⟩
  apply hone.bind
  intro _ c₂ hwork₂
  exact returns_pure ⟨V, hwork₂⟩

theorem removeAbsent_throws {e : Entry} (h : Resting codec (.node e .nil .nil) c V)
    (hkey : e.1 < key) : ∃ c',
      (removeKeys codec unfilled (fuel + 2) pad [key]).run c = .error .undefinedBehaviour c' := by
  obtain ⟨_, c₁, hstart, hwork⟩ := start_returns h
  have hrootId : c₁.rootId = e.2.id := hwork.rootId
  obtain ⟨c₂, hthrow⟩ := removePriv_absent hwork.shows' hwork.carries hkey
  rw [← hrootId] at hthrow
  have hone : (do
      let _ ← removePriv codec unfilled key (fuel + 2) (← get).rootId : ClientM PUnit).run c₁ =
        .error .undefinedBehaviour c₂ := (run_bind_ok (run_get c₁)).trans (run_bind_error hthrow)
  have hloop : ([key].forM fun key => do
      let _ ← removePriv codec unfilled key (fuel + 2) (← get).rootId).run c₁ =
        .error .undefinedBehaviour c₂ := run_bind_error hone
  exact ⟨c₂, (run_bind_ok hstart).trans (run_bind_error hloop)⟩

theorem AllClear.nil : AllClear unfilled [] t := by
  intro before key after hsplit
  simp at hsplit

theorem AllClear.cons (hcall : ∀ key, call = .remove key → Clear unfilled key t)
    (h : AllClear unfilled calls (call.tree t)) : AllClear unfilled (call :: calls) t := by
  intro before key after hsplit
  cases before with
  | nil =>
    obtain ⟨hhead, _⟩ := List.cons.inj hsplit
    exact hcall key hhead
  | cons first before =>
    obtain ⟨rfl, htail⟩ := List.cons.inj hsplit
    exact h before key after htail

theorem AllClear.head (h : AllClear unfilled (call :: calls) t) {key : Str}
    (hcall : call = .remove key) : Clear unfilled key t :=
  h [] key calls (hcall ▸ rfl)

theorem AllClear.tail (h : AllClear unfilled (call :: calls) t) :
    AllClear unfilled calls (call.tree t) := by
  intro before key after hsplit
  exact h (call :: before) key after (hsplit ▸ rfl)

theorem runCalls_returns (h : Resting codec t c V) (hs : Sound done t)
    (hins : Insertable (done ++ inserted calls)) (hf : (done ++ inserted calls).length < fuel)
    (hclear : AllClear unfilled calls t) :
    Returns (runCalls codec unfilled fuel pad calls) c fun answers c' =>
      (∃ V', Resting codec (treeOf calls t) c' V') ∧
      Sound (done ++ inserted calls) (treeOf calls t) ∧
      dataOf (treeOf calls t) = contentOf calls (dataOf t) ∧
      answers.length = calls.length ∧ ∀ k key, calls[k]? = some (.find key) →
        ∃ answer, answers[k]? = some answer ∧
          Finds key (contentOf (calls.take k) (dataOf t) key) answer := by
  induction calls generalizing c V t done with
  | nil =>
    rw [inserted, List.flatMap_nil, List.append_nil]
    exact returns_pure ⟨⟨V, h⟩, hs, rfl, rfl, by simp⟩
  | cons call calls ih =>
    have hsplit : done ++ inserted (call :: calls) = (done ++ call.nodes) ++ inserted calls := by
      simp [inserted]
    rw [hsplit] at hins hf ⊢
    have hpre := hins.sub (List.sublist_append_left _ _)
    have hlen : (done ++ call.nodes).length < fuel := by
      rw [List.length_append] at hf
      omega
    have hcall : ∀ key, call = .remove key → Clear unfilled key t := fun key => hclear.head
    obtain ⟨hsound, hdata⟩ := call_sound hs hpre hcall
    apply (call_returns h hs hpre hlen hcall).bind
    intro answer c₁ hpost
    obtain ⟨⟨V₁, hrest⟩, hanswer⟩ := hpost
    apply (ih hrest hsound hins hf hclear.tail).bind
    intro answers c₂ hpost
    obtain ⟨hrest₂, hsound₂, hdata₂, hlength, hget⟩ := hpost
    rw [hdata] at hdata₂ hget
    refine returns_pure ⟨hrest₂, hsound₂, hdata₂, by simp [hlength], ?_⟩
    intro k key hk
    cases k with
    | zero =>
      rcases Option.some.inj hk with rfl
      exact ⟨answer, rfl, hanswer key rfl⟩
    | succ k => exact hget k key hk

section Serve

variable {bucketSize blockNumber : ℕ} {storage : Storage} {randGen : RandomForOram} {o : Oram}

/-- In every run whose removals start from trees in which the code handles them, every search finds
what was inserted and not removed, and the stored nodes are a balanced search tree that records its
heights. -/
theorem removals_exact (codec : Codec Node) (pad : ℤ → ℤ) (hs : ∀ k, storage.fails k = false)
    (hbuild : construct.run (blank bucketSize blockNumber storage randGen) = .ok ⟨⟩ o)
    (order : HashOrder) {secretKey : Str} (hkey : 16 ≤ secretKey.length)
    (hins : Insertable (inserted calls)) (hf : (inserted calls).length < fuel)
    (hclear : AllClear unfilled calls .nil) :
    ∃ answers c u, (serveCalls codec unfilled fuel pad calls).run
        (Client.fresh secretKey order o) = .ok answers c ∧
      answers.length = calls.length ∧
      (∀ k key, calls[k]? = some (.find key) → ∃ answer, answers[k]? = some answer ∧
        Finds key (contentOf (calls.take k) nothing key) answer) ∧
      Linked codec c c.rootId u ∧ u.map entryOf = treeOf calls .nil ∧
      ((entries u).map Node.key).Pairwise (· < ·) ∧ Measured u ∧ AvlTree.Balanced u ∧
      ∀ key, key ∈ (entries u).map Node.key ↔ contentOf calls nothing key ≠ none := by
  have hinitial : Returns (initDummyData codec) (Client.fresh secretKey order o) _ :=
    fresh_resting hs hbuild order hkey
  obtain ⟨_, c₀, hinit, V₀, hrest⟩ := hinitial
  have hcalls : Returns (runCalls codec unfilled fuel pad calls) c₀ _ :=
    runCalls_returns hrest Sound.nil hins hf hclear
  obtain ⟨answers, c, hrun, ⟨V, hrest⟩, hsound, hdata, hlen, hget⟩ := hcalls
  have hmiss : ∀ i, ¬ Cached c i := by
    intro i
    simp [Cached, find?_eq_none, hrest.nothing_cached]
  obtain ⟨u, hlinked, hmap, hmeasured⟩ := linked_of_carries hrest.shows' hmiss hrest.carries
  have hentries : (entries u).map Node.key = (entries (treeOf calls .nil)).map Prod.fst := by
    rw [← hmap, entries_map, List.map_map]
    rfl
  refine ⟨answers, c, u, (run_bind_ok hinit).trans hrun, hlen, hget, hrest.rootId ▸ hlinked, hmap,
    ?_, hmeasured, ?_, ?_⟩
  · rw [hentries]
    exact hsound.ordered
  · rw [← balanced_map entryOf, hmap]
    exact hsound.balanced
  · intro key
    have hkey : dataOf (treeOf calls .nil) key = contentOf calls nothing key := congrFun hdata key
    rw [hentries, ← hkey, dataOf, Ne, Option.map_eq_none_iff, lookup_eq hsound.ordered,
      Option.map_eq_none_iff, List.find?_eq_none]
    simp

def sampleCalls : List Call :=
  [.insert [.fresh 1 [98] [1], .fresh 2 [99] [2]], .remove [98], .remove [97], .find [98],
    .find [99]]

theorem sampleCalls_clear : AllClear .changed sampleCalls .nil := by
  refine .cons nofun (.cons ?_ (.cons ?_ (.cons nofun (.cons nofun .nil))))
  · intro key hkey
    cases hkey
    exact .found (e := ([98], ⟨1, [1]⟩)) (d := ([99], ⟨2, [2]⟩)) .right rfl rfl
  · intro key hkey
    cases hkey
    exact .left (e := ([99], ⟨1, [2]⟩)) (l := .nil) (r := .nil) (by decide) .nil (Nat.zero_le _)

theorem sampleCalls_insertable : Insertable (inserted sampleCalls) :=
  ⟨by decide, by decide, by simp [inserted, sampleCalls, Call.nodes, Node.fresh, Storable,
    blockBytes], by decide⟩

theorem removals_exact_sample :
    ∃ (o : Oram) (answers : List (Option Node)) (c : Client) (u : BinaryTree Node),
      construct.run (blank 1 2 .new ⟨0, fun k => k, 0⟩) = .ok ⟨⟩ o ∧
      (serveCalls ObjectArchive.nodeCodec .changed 4 id sampleCalls).run
        (Client.fresh sampleKey .newestFirst o) = .ok answers c ∧
      answers[3]? = some none ∧ (∃ n : Node, answers[4]? = some (some n) ∧ n.data = [2]) ∧
      Linked ObjectArchive.nodeCodec c c.rootId u ∧ Measured u ∧ AvlTree.Balanced u := by
  obtain ⟨o, hbuild⟩ := construct_small
  have hf : (inserted sampleCalls).length < 4 := by decide
  obtain ⟨answers, c, u, hrun, _, hget, hlinked, _, _, hmeasured, hbalanced, _⟩ :=
    removals_exact ObjectArchive.nodeCodec id (fun _ => rfl) hbuild .newestFirst sampleKey_length
      sampleCalls_insertable hf sampleCalls_clear
  refine ⟨o, answers, c, u, hbuild, hrun, ?_, ?_, hlinked, hmeasured, hbalanced⟩
  · obtain ⟨_, hanswer, rfl⟩ := hget 3 [98] rfl
    exact hanswer
  · obtain ⟨_, hanswer, n, rfl, _, hdata⟩ := hget 4 [99] rfl
    exact ⟨n, hanswer, hdata⟩

/-- In a dictionary with one key, a search finds the key after its removal, and the removal of a
greater key dereferences a null pointer. -/
theorem leaf_not_removed : ∃ (o : Oram),
    construct.run (blank 1 2 .new ⟨0, fun k => k, 0⟩) = .ok ⟨⟩ o ∧ ∀ unfilled,
    (∃ answers c n, (serveCalls ObjectArchive.nodeCodec unfilled 2 id
        [.insert [.fresh 1 [97] [1]], .remove [97], .find [97]]).run
        (Client.fresh sampleKey .newestFirst o) = .ok answers c ∧
      answers[2]? = some (some n) ∧ n.key = [97]) ∧
    ∃ c, (serveCalls ObjectArchive.nodeCodec unfilled 2 id
        [.insert [.fresh 1 [97] [1]], .remove [98]]).run
        (Client.fresh sampleKey .newestFirst o) = .error .undefinedBehaviour c := by
  obtain ⟨o, hbuild⟩ := construct_small
  refine ⟨o, hbuild, ?_⟩
  intro unfilled
  have hinitial : Returns (initDummyData ObjectArchive.nodeCodec)
      (Client.fresh sampleKey .newestFirst o) _ :=
    fresh_resting (fun _ => rfl) hbuild .newestFirst sampleKey_length
  obtain ⟨_, c₀, hinit, V₀, hrest₀⟩ := hinitial
  have hins : Insertable ([] ++ (Call.insert [.fresh 1 [97] [1]]).nodes) :=
    ⟨by decide, by decide, by simp [Call.nodes, Node.fresh, Storable, blockBytes], by decide⟩
  have hclear : ∀ key, Call.insert [.fresh 1 [97] [1]] = .remove key →
      Clear unfilled key .nil := by
    intro key hcall
    cases hcall
  obtain ⟨hsound, _⟩ := call_sound Sound.nil hins hclear
  have hinsert : Returns ((Call.insert [.fresh 1 [97] [1]]).run ObjectArchive.nodeCodec unfilled 2
      id) c₀ _ := call_returns hrest₀ Sound.nil hins (by decide) hclear
  obtain ⟨a₁, c₁, hrun₁, ⟨V₁, hrest₁⟩, _⟩ := hinsert
  have hremove : Returns (removeKeys ObjectArchive.nodeCodec unfilled 2 id [[97]]) c₁ _ :=
    removeLeaf_returns (e := ([97], ⟨1, [1]⟩)) hrest₁
  obtain ⟨_, c₂, hrun₂, V₂, hrest₂⟩ := hremove
  have hkept : ∀ key, Call.find [97] = .remove key →
      Clear unfilled key (.node ([97], ⟨1, [1]⟩) .nil .nil) := by
    intro key hcall
    cases hcall
  have hfind : Returns ((Call.find [97]).run ObjectArchive.nodeCodec unfilled 2 id) c₂ _ :=
    call_returns hrest₂ hsound (hins.sub (List.sublist_append_left _ _)) (by decide) hkept
  obtain ⟨a₃, c₃, hrun₃, _, hanswer⟩ := hfind
  obtain ⟨n, rfl, hkey, _⟩ := hanswer [97] rfl
  have hgreater : ([97] : Str) < [98] := by decide
  have hthrow : ∃ c', (removeKeys ObjectArchive.nodeCodec unfilled 2 id [[98]]).run c₁ =
      .error .undefinedBehaviour c' := removeAbsent_throws (e := ([97], ⟨1, [1]⟩)) hrest₁ hgreater
  obtain ⟨c₄, hthrow⟩ := hthrow
  have hremoved : ((Call.remove [97]).run ObjectArchive.nodeCodec unfilled 2 id).run c₁ =
      .ok none c₂ := run_bind_ok hrun₂
  have hthrown : ((Call.remove [98]).run ObjectArchive.nodeCodec unfilled 2 id).run c₁ =
      .error .undefinedBehaviour c₄ := run_bind_error hthrow
  refine ⟨⟨[a₁, none, some n], c₃, n, ?_, rfl, hkey⟩, c₄, ?_⟩
  · exact (run_bind_ok hinit).trans (runCalls_cons hrun₁ (runCalls_cons hremoved
      (runCalls_cons hrun₃ rfl)))
  · exact (run_bind_ok hinit).trans ((run_bind_ok hrun₁).trans (run_bind_error
      (run_bind_error hthrown)))

end Serve

end RemovalRuns
