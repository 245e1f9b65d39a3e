import SseSeal.KeyedMultiset
import SseSeal.ObjectArchive
import SseSeal.OramCalls

/-! Path ORAM is a memory. The blocks held are exactly the values last written, one block
for each index, and every block in the storage lies on the path to the leaf that the
position map gives its index. -/
namespace OramMemory

open Bytes Objects OramReadPathEviction StateExcept PathTree OramEviction OramAccess OramBlocks
open OramCalls KeyedMultiset

variable {o : Oram} {m : ℤ → Option Str} {c : Call}

/-- The instance holds the memory `m`, from indices to the strings last written. -/
structure Holds (o : Oram) (m : ℤ → Option Str) : Prop where
  wellFormed : WellFormed o
  blocks : Represents Block.index Block.data (held o) m
  placed : ∀ j < 2 ^ 31, Placed o j

def store (codec : Codec Node) (m : ℤ → Option Str) (c : Call) : ℤ → Option Str :=
  match c.op with
  | .read => m
  | .write => Function.update m c.index (some (c.data codec))

def reply (m : ℤ → Option Str) (c : Call) : Str :=
  match c.op with
  | .read => (m c.index).getD []
  | .write => []

theorem placed_prepare {j : ℕ} (hp : Placed o j) (hj : j < 2 ^ 31)
    (hne : (c.prepare o).positionMap j = o.positionMap j) : Placed (c.prepare o) j := by
  intro p hlt b hb hbj
  rw [Call.prepare_numBuckets] at hlt
  rw [Call.prepare_storage] at hb
  obtain ⟨l, hl, he⟩ := hp p hlt b hb hbj
  have hun : toUnsigned b.index = j := by rw [hbj, toUnsigned_natCast hj]
  refine ⟨l, ?_, ?_⟩
  · rw [Call.prepare_numLevels]
    exact hl
  · rw [hun, P_eq] at he
    rw [hun, P_eq, Call.prepare_numLevels, hne]
    exact he

theorem next_placed (hw : WellFormed o) (hc : c.InRange) (codec : Codec Node) {j : ℕ}
    (hj : j < 2 ^ 31) (hp : Placed o j) : Placed (c.next codec o) j := by
  have hleaf : o.positionMap c.index < (c.prepare o).numLeaves := by
    rw [Call.prepare_numLeaves]
    exact hw.positions_lt _
  refine handled_placed (Call.prepare_wellFormed hw) hleaf (Call.index_lt hc) ?_
  intro p hlt hout b hb hi
  -- the accessed index has no block off its old path
  by_cases hji : j = c.index
  · subst hji
    rw [Call.prepare_numBuckets] at hlt
    rw [Call.prepare_storage] at hb
    rw [Call.prepare_numLevels] at hout
    exact absurd (hp.mem_path hj hlt hb hi) hout
  · exact placed_prepare hp hj (Call.prepare_positionMap_of_ne hji) p hlt b hb hi

theorem next_reliable (hr : Reliable o) (codec : Codec Node) : Reliable (c.next codec o) :=
  (handled_frame _ _ _ _ _ _).reliable (Call.prepare_reliable hr)

theorem next_wellFormed (hw : WellFormed o) (hc : c.InRange) (codec : Codec Node) :
    WellFormed (c.next codec o) := by
  refine (handled_frame _ _ _ _ _ _).wellFormed (Call.prepare_wellFormed hw) ?_
  intro b hb
  exact accessed_stash_real (Call.prepare_wellFormed hw) (Call.index_lt hc) b
    (evictPath_stash_subset hb)

theorem next_effect (hw : WellFormed o) (hc : c.InRange) (codec : Codec Node) :
    Effect c.op c.index (c.newLeaf o) (c.data codec)
      (opened (o.positionMap c.index) (c.prepare o)).stash (held o) (held (c.next codec o))
      (c.answer o) := by
  have hleaf : o.positionMap c.index < (c.prepare o).numLeaves := by
    rw [Call.prepare_numLeaves]
    exact hw.positions_lt _
  rw [← toInt_of_lt (Call.index_lt hc), ← Call.held_prepare (c := c)]
  exact handled_effect (Call.prepare_wellFormed hw) hleaf (Call.index_lt hc)

theorem mem_stash_of_held (hw : WellFormed o) (hc : c.InRange) (hp : Placed o c.index) {b : Block}
    (hb : b ∈ held o) (hi : b.index = (c.index : ℤ)) :
    b ∈ (opened (o.positionMap c.index) (c.prepare o)).stash := by
  have hleaf : o.positionMap c.index < (c.prepare o).numLeaves := by
    rw [Call.prepare_numLeaves]
    exact hw.positions_lt _
  refine mem_opened_stash (Call.prepare_wellFormed hw) hleaf ?_ (by rwa [Call.held_prepare])
  intro p hlt hbp
  rw [Call.prepare_numBuckets] at hlt
  rw [Call.prepare_storage] at hbp
  rw [Call.prepare_numLevels]
  exact hp.mem_path (Call.index_lt hc) hlt hbp hi

/-- The effect of a call on the blocks is its effect on the memory they represent. -/
theorem effect_represents {before after : Multiset Block} {stash : List Block} {answer : Str}
    {newLeaf : ℤ} (codec : Codec Node) (h : Represents Block.index Block.data before m)
    (hfound : ∀ b ∈ before, b.index = (c.index : ℤ) → b ∈ stash)
    (he : Effect c.op c.index newLeaf (c.data codec) stash before after answer) :
    Represents Block.index Block.data after (store codec m c) ∧ answer = reply m c := by
  cases he with
  | hit b rest hb hbefore hafter =>
    subst hbefore
    have hval : m c.index = some b.data := hb ▸ h.value b (Multiset.mem_cons_self _ _)
    rw [hafter, reply, hval]
    cases hop : c.op with
    | read => exact ⟨by simpa [store, hop, written] using h, rfl⟩
    | write =>
      have hr := h.replace (c := { b with data := c.data codec }) rfl
      exact ⟨by simpa [store, hop, written, hb] using hr, rfl⟩
  | miss hnone hafter =>
    have hfree : ∀ b ∈ before, b.index ≠ (c.index : ℤ) := fun b hb hi =>
      hnone b (hfound b hb hi) hi
    rw [reply, h.absent hfree]
    cases hop : c.op with
    | read =>
      rw [hop] at hafter
      exact ⟨by simpa [store, hop, hafter] using h, rfl⟩
    | write =>
      rw [hop] at hafter
      have hi := h.insert (c := ⟨newLeaf, c.index, c.data codec⟩) hfree
      exact ⟨by simpa [store, hop, hafter] using hi, rfl⟩

/-- One call keeps the instance a memory and answers as the memory does. -/
theorem holds_next (h : Holds o m) (hc : c.InRange) (codec : Codec Node) :
    Holds (c.next codec o) (store codec m c) ∧ c.answer o = reply m c := by
  obtain ⟨hblocks, hanswer⟩ := effect_represents codec h.blocks
    (fun b => mem_stash_of_held h.wellFormed hc (h.placed _ (Call.index_lt hc)))
    (next_effect h.wellFormed hc codec)
  refine ⟨⟨?_, hblocks, ?_⟩, hanswer⟩
  · exact next_wellFormed h.wellFormed hc codec
  · intro j hj
    exact next_placed h.wellFormed hc codec hj (h.placed j hj)

def runAll (codec : Codec Node) : List Call → OramM (List Str)
  | [] => pure []
  | c :: calls => do
    let answer ← c.run codec
    let answers ← runAll codec calls
    return answer :: answers

def storeAll (codec : Codec Node) (m : ℤ → Option Str) (calls : List Call) : ℤ → Option Str :=
  calls.foldl (store codec) m

theorem holds_runAll (hr : Reliable o) (h : Holds o m) (codec : Codec Node) {calls : List Call}
    (hc : ∀ c ∈ calls, c.InRange) :
    ∃ answers u, (runAll codec calls).run o = .ok answers u ∧
      Holds u (storeAll codec m calls) ∧ answers.length = calls.length ∧
      ∀ k c, calls[k]? = some c →
        answers[k]? = some (reply (storeAll codec m (calls.take k)) c) := by
  induction calls generalizing o m with
  | nil => exact ⟨[], o, rfl, h, rfl, by simp⟩
  | cons c calls ih =>
    obtain ⟨hnext, hans⟩ := holds_next h (hc c List.mem_cons_self) codec
    obtain ⟨answers, u, hrun, hu, hlen, hget⟩ := ih (next_reliable hr codec) hnext fun d hd =>
      hc d (List.mem_cons_of_mem _ hd)
    refine ⟨c.answer o :: answers, u, ?_, hu, by simp [hlen], ?_⟩
    · refine (run_bind_ok (Call.run_ok hr h.wellFormed codec c)).trans ?_
      exact (run_bind_ok hrun).trans (run_pure _ _)
    · intro k d hk
      cases k with
      | zero =>
        cases hk
        simpa [storeAll] using hans
      | succ k => simpa [storeAll] using hget k d hk

theorem holds_of_runAll {codec : Codec Node} {calls : List Call} {answers : List Str} {u : Oram}
    (h : Holds o m) (hc : ∀ c ∈ calls, c.InRange)
    (hrun : (runAll codec calls).run o = .ok answers u) : Holds u (storeAll codec m calls) := by
  induction calls generalizing o m answers with
  | nil =>
    cases hrun
    exact h
  | cons c calls ih =>
    obtain ⟨answer, v, hcall, hrun⟩ := bind_ok hrun
    obtain ⟨rest, w, hrest, hrun⟩ := bind_ok hrun
    cases hrun
    obtain ⟨_, rfl⟩ := Call.run_ok_next h.wellFormed hcall
    have hnext := (holds_next h (hc c List.mem_cons_self) codec).1
    exact ih hnext (fun d hd => hc d (List.mem_cons_of_mem _ hd)) hrest

theorem holds_construct {bucketSize numBlocks : ℕ} {storage : Storage} {randGen : RandomForOram}
    (h : construct.run (blank bucketSize numBlocks storage randGen) = .ok ⟨⟩ o) :
    Holds o fun _ => none := by
  have hf := construct_fresh h
  refine ⟨hf.wellFormed, ?_, ?_⟩
  · rw [hf.nothing_held]
    exact represents_zero
  · intro j _ p hp b hb _
    have hmem := mem_held_of_mem_bucket hp hb
    rw [hf.nothing_held] at hmem
    exact absurd hmem (Multiset.notMem_zero b)

theorem reliable_construct {bucketSize numBlocks : ℕ} {storage : Storage}
    {randGen : RandomForOram} (hs : ∀ k, storage.fails k = false)
    (h : construct.run (blank bucketSize numBlocks storage randGen) = .ok ⟨⟩ o) : Reliable o := by
  intro k
  rw [(construct_fresh h).fails]
  exact hs k

/-- The string stored by the latest write of an index, through either entry point. -/
def lastWrite (codec : Codec Node) (calls : List Call) (i : ℕ) : Option Str :=
  ((calls.filter fun c => c.op = .write ∧ c.index = i).getLast?).map (Call.data codec)

theorem storeAll_eq_lastWrite (codec : Codec Node) (calls : List Call) (i : ℕ) :
    storeAll codec (fun _ => none) calls i = lastWrite codec calls i := by
  induction calls using List.reverseRecOn with
  | nil => rfl
  | append_singleton calls c ih =>
    have hstore : storeAll codec (fun _ => none) (calls ++ [c]) =
        store codec (storeAll codec (fun _ => none) calls) c := by
      simp [storeAll]
    rw [hstore, store, lastWrite, List.filter_append]
    cases hop : c.op with
    | read =>
      have hfilter : [c].filter (fun c => c.op = .write ∧ c.index = i) = [] := by simp [hop]
      rw [hfilter]
      simpa [lastWrite] using ih
    | write =>
      by_cases hi : c.index = i
      · simp [hop, hi]
      · have hne : (i : ℤ) ≠ c.index := by exact_mod_cast Ne.symm hi
        have hfilter : [c].filter (fun c => c.op = .write ∧ c.index = i) = [] := by simp [hi]
        rw [hfilter]
        simpa [hne, lastWrite] using ih

/-- Each read returns the string of the latest preceding write of its index, and the empty
string if there is none, for every stream of random values. -/
theorem path_oram_reads_latest_write (codec : Codec Node) {bucketSize numBlocks : ℕ}
    {storage : Storage} {randGen : RandomForOram} (hs : ∀ k, storage.fails k = false)
    (h : construct.run (blank bucketSize numBlocks storage randGen) = .ok ⟨⟩ o)
    {calls : List Call} (hc : ∀ c ∈ calls, c.InRange) :
    ∃ answers u, (runAll codec calls).run o = .ok answers u ∧
      answers.length = calls.length ∧
      ∀ k c, calls[k]? = some c → c.op = .read →
        answers[k]? = some ((lastWrite codec (calls.take k) c.index).getD []) := by
  obtain ⟨answers, u, hrun, _, hlen, hget⟩ :=
    holds_runAll (reliable_construct hs h) (holds_construct h) codec hc
  refine ⟨answers, u, hrun, hlen, ?_⟩
  intro k c hk hop
  rw [hget k c hk, reply, hop, storeAll_eq_lastWrite]

theorem path_oram_reads_latest_write_mixed :
    ∃ o answers u, construct.run (blank 1 2 .new ⟨0, fun k => k, 0⟩) = .ok ⟨⟩ o ∧
      (runAll ObjectArchive.nodeCodec [.access .write 1 [104, 105], .direct .read (.ofTag 3 (-1)),
        .direct .write (.fresh 0 [107] [118]), .access .read 1 []]).run o = .ok answers u ∧
      answers[1]? = some [] ∧ answers[3]? = some [104, 105] := by
  have hs : ∀ k, Storage.new.fails k = false := fun _ => rfl
  have hc : ∀ c ∈ [Call.access .write 1 [104, 105], .direct .read (.ofTag 3 (-1)),
      .direct .write (.fresh 0 [107] [118]), .access .read 1 []], c.InRange := by
    simp [Call.InRange, Node.ofTag, Node.fresh]
  obtain ⟨o, hbuild⟩ := construct_small
  obtain ⟨answers, u, hrun, _, hread⟩ :=
    path_oram_reads_latest_write ObjectArchive.nodeCodec hs hbuild hc
  exact ⟨o, answers, u, hbuild, hrun, hread 1 _ rfl rfl, hread 3 _ rfl rfl⟩

end OramMemory
