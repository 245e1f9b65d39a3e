import SseSeal.OramFailure
import SseSeal.OramInvariant

/-! The leaf a block records and the leaf that the position map gives its address. A new block
records the leaf drawn for it; a block that is found is read or overwritten with the leaf it
has, while the position map has got another one. -/
namespace BlockLeaves

open Bytes Objects OramReadPathEviction StateExcept ListPicking OramEviction OramAccess OramBlocks
open OramCalls OramMemory OramInvariant

variable {o u : Oram} {b : Block} {leaf i l : ℕ} {newLeaf : ℤ} {newData : Str} {op : Operation}

def Stored (o : Oram) (b : Block) : Prop :=
  b.index ≠ -1 ∧ (b ∈ o.stash ∨ ∃ p < o.storage.capacity, b ∈ o.storage.buckets p)

/-- Every block records the leaf it is assigned to. -/
def Current (o : Oram) : Prop :=
  ∀ b, Stored o b → b.leafId = o.positionMap (toUnsigned b.index)

/-- The leaf that is drawn next is the one that the blocks stored for an address have. -/
def DrawsLeaf (o : Oram) (i : ℕ) : Prop :=
  ∀ b, Stored o b → toUnsigned b.index = i → o.randGen.leaf = o.positionMap i

/-- The states that calls of `access` lead to, whether they return or throw, where each call
finds a state that allows it. -/
inductive Accessed (allowed : Oram → ℕ → Prop) (o : Oram) : Oram → Prop where
  | start : Accessed allowed o o
  | step (u v : Oram) (op : Operation) (i : ℕ) (newData : Str) : Accessed allowed o u →
      i < 2 ^ 32 → allowed u i → Leads (access op i newData) u v → Accessed allowed o v

theorem stored_iff_held (hw : WellFormed o) : Stored o b ↔ b ∈ held o := by
  rw [Stored, OramFailure.mem_held, hw.capacity_eq]
  constructor
  · intro h
    obtain ⟨hb, hs | ⟨p, hp, hs⟩⟩ := h
    · exact Or.inl hs
    · exact Or.inr ⟨p, hp, List.mem_filter.mpr ⟨hs, by simpa using hb⟩⟩
  · intro h
    obtain hs | ⟨p, hp, hs⟩ := h
    · exact ⟨hw.stash_real b hs, Or.inl hs⟩
    · obtain ⟨hs, hb⟩ := List.mem_filter.mp hs
      exact ⟨by simpa using hb, Or.inr ⟨p, hp, hs⟩⟩

theorem toUnsigned_toInt {i : ℕ} (h : i < 2 ^ 32) : toUnsigned (toInt i) = i := by
  rw [toUnsigned, toInt]
  split <;> omega

/-- What a call of `access_handler` keeps once the address has its new leaf. -/
structure Assigned (i : ℕ) (newLeaf : ℤ) (o : Oram) : Prop where
  current : Current o
  leaf : newLeaf = o.positionMap i
  full : o.maxSize = o.bucketSize

theorem Assigned.move (h : Assigned i newLeaf o) (hmap : u.positionMap = o.positionMap)
    (hmax : u.maxSize = o.maxSize) (hsize : u.bucketSize = o.bucketSize)
    (hstored : ∀ b, Stored u b → Stored o b) : Assigned i newLeaf u := by
  refine ⟨?_, hmap ▸ h.leaf, ?_⟩
  · intro b hb
    rw [hmap]
    exact h.current b (hstored b hb)
  · rw [hmax, hsize]
    exact h.full

theorem Assigned.logCall (h : Assigned i newLeaf o) (call : StorageCall) :
    Assigned i newLeaf (o.logCall call) := h.move rfl rfl rfl fun _ hb => hb

theorem readBucket_assigned {position : ℕ} (h : Assigned i newLeaf o) :
    Ends (readBucket position) o
      (fun blocks u => Assigned i newLeaf u ∧ ∀ b ∈ blocks, b.index ≠ -1 → Stored u b)
      (fun _ u => Assigned i newLeaf u) := by
  have hlog := h.logCall (.read position)
  by_cases hc : o.storage.capacity ≤ position
  · exact ends_error (by simp only [readBucket, EStateM.run, if_pos hc]; rfl) hlog
  cases hf : o.failsNow with
  | true => exact ends_error (by simp only [readBucket, EStateM.run, if_neg hc, hf]; rfl) hlog
  | false =>
    refine ends_ok (a := o.storage.buckets position) (t := o.logCall (.read position)) ?_ ⟨hlog, ?_⟩
    · simp only [readBucket, EStateM.run, if_neg hc, hf]
      rfl
    · intro b hb hreal
      exact ⟨hreal, Or.inr ⟨position, Nat.lt_of_not_le hc, hb⟩⟩

theorem writeBucket_assigned {position : ℕ} {bucket : Bucket} (h : Assigned i newLeaf o)
    (hbucket : ∀ b ∈ bucket, b.index ≠ -1 → b.leafId = o.positionMap (toUnsigned b.index)) :
    Ends (writeBucket position bucket) o (fun _ u => Assigned i newLeaf u)
      (fun _ u => Assigned i newLeaf u) := by
  have hlog := h.logCall (.write position)
  by_cases hc : o.storage.capacity ≤ position
  · exact ends_error (by simp only [writeBucket, EStateM.run, if_pos hc]; rfl) hlog
  cases hf : o.failsNow with
  | true => exact ends_error (by simp only [writeBucket, EStateM.run, if_neg hc, hf]; rfl) hlog
  | false =>
    refine ends_ok (a := ⟨⟩) (t := (o.logCall (.write position)).storeBucket position bucket) ?_
      ⟨?_, h.leaf, h.full⟩
    · simp only [writeBucket, EStateM.run, if_neg hc, hf]
      rfl
    · intro b hb
      obtain ⟨hreal, hs | ⟨p, hp, hs⟩⟩ := hb
      · exact h.current b ⟨hreal, Or.inl hs⟩
      by_cases hpos : p = position
      · subst hpos
        exact hbucket b (by simpa [Oram.storeBucket] using hs) hreal
      · refine h.current b ⟨hreal, Or.inr ⟨p, hp, ?_⟩⟩
        simpa [Oram.storeBucket, Oram.logCall, hpos] using hs

theorem readLevel_assigned :
    Stable (Assigned i newLeaf) (Assigned i newLeaf) (readLevel leaf l) := by
  apply stable_get_bind
  intro o _ s hs
  apply (readBucket_assigned hs).bind
  intro blocks t hpost
  obtain ⟨ht, hblocks⟩ := hpost
  refine ends_ok rfl (ht.move rfl rfl rfl ?_)
  intro b hb
  obtain ⟨hreal, hs | hs⟩ := hb
  · rcases List.mem_append.mp hs with hs | hs
    · exact ⟨hreal, Or.inl hs⟩
    · exact hblocks b (List.mem_filter.mp hs).1 hreal
  · exact ⟨hreal, Or.inr hs⟩

theorem mem_stashUpdate_leaf {index : ℤ} {stash : List Block}
    (hb : b ∈ stashUpdate op index newLeaf newData stash) :
    (∃ d ∈ stash, b.index = d.index ∧ b.leafId = d.leafId) ∨
      (b.index = index ∧ b.leafId = newLeaf) := by
  by_cases h : ∃ b ∈ stash, b.index = index
  · obtain ⟨d, pre, post, rfl, hd, hup, _⟩ := stash_hit op newLeaf newData h
    rw [hup] at hb
    rcases List.mem_append.mp hb with hb | hb
    · exact Or.inl ⟨b, List.mem_append_left _ hb, rfl, rfl⟩
    rcases List.mem_cons.mp hb with rfl | hb
    · exact Or.inl ⟨d, by simp, written_index op newData d, by cases op <;> rfl⟩
    · exact Or.inl ⟨b, by simp [hb], rfl, rfl⟩
  · rw [(stash_miss op newLeaf newData h).1] at hb
    rcases List.mem_append.mp hb with hb | hb
    · exact Or.inl ⟨b, hb, rfl, rfl⟩
    · cases op with
      | read => cases hb
      | write =>
        obtain rfl := List.mem_singleton.mp hb
        exact Or.inr ⟨rfl, rfl⟩

theorem accessStash_assigned (hi : i < 2 ^ 32) :
    Stable (Assigned i newLeaf) (Assigned i newLeaf) (accessStash op i newLeaf newData) := by
  intro o ho
  refine ends_ok (accessStash_run op i newLeaf newData o) ⟨?_, ho.leaf, ho.full⟩
  intro b hb
  obtain ⟨hreal, hs | hs⟩ := hb
  · rcases mem_stashUpdate_leaf hs with ⟨d, hd, hindex, hleaf⟩ | ⟨hindex, hleaf⟩
    · rw [hleaf, hindex]
      exact ho.current d ⟨hindex ▸ hreal, Or.inl hd⟩
    · rw [hleaf, hindex, toUnsigned_toInt hi]
      exact ho.leaf
  · exact ho.current b ⟨hreal, Or.inr hs⟩

theorem evictLevel_assigned :
    Stable (Assigned i newLeaf) (Assigned i newLeaf) (evictLevel leaf l) := by
  intro o ho
  have hstash : Assigned i newLeaf (evictStash leaf l o) := by
    refine ho.move (u := evictStash leaf l o) rfl rfl rfl ?_
    intro b hb
    obtain ⟨hreal, hs | hs⟩ := hb
    · exact ⟨hreal, Or.inl (mem_of_mem_eraseKeys hs)⟩
    · exact ⟨hreal, Or.inr hs⟩
  have hbucket : ∀ b ∈ fullBucket leaf l o, b.index ≠ -1 →
      b.leafId = o.positionMap (toUnsigned b.index) := by
    intro b hb hreal
    rcases List.mem_append.mp hb with hb | hb
    · exact ho.current b ⟨hreal, Or.inl (List.mem_filter.mp (List.mem_of_mem_take hb)).1⟩
    · obtain ⟨_, rfl⟩ := List.mem_replicate.mp hb
      exact absurd rfl hreal
  rw [Ends, evictLevel_run ho.full]
  exact writeBucket_assigned hstash hbucket

theorem accessHandler_assigned (hi : i < 2 ^ 32) : Stable (Assigned i newLeaf)
    (Assigned i newLeaf) (accessHandler op i leaf newLeaf newData) := by
  apply stable_get_bind
  intro o _
  apply (stable_forM fun l _ => readLevel_assigned).bind
  intro _
  apply (accessStash_assigned hi).bind
  intro data
  apply (stable_forM fun l _ => evictLevel_assigned).bind
  intro _
  exact stable_pure data

/-- A call whose draw agrees with the blocks stored leaves every block current. -/
theorem access_current (hi : i < 2 ^ 32) (hmax : o.maxSize = o.bucketSize) (h : Current o)
    (hdraw : DrawsLeaf o i) : Ends (access op i newData) o
      (fun _ u => Current u ∧ u.maxSize = u.bucketSize)
      (fun _ u => Current u ∧ u.maxSize = u.bucketSize) := by
  have hentry : Assigned i o.randGen.leaf ((Call.access op i newData).prepare o) := by
    refine ⟨?_, (Function.update_self i o.randGen.leaf o.positionMap).symm ▸ rfl, hmax⟩
    intro b hb
    by_cases hbi : toUnsigned b.index = i
    · have hold := h b hb
      rw [hbi, ← hdraw b hb hbi] at hold
      rw [hold, hbi]
      exact congrArg Nat.cast (Function.update_self i o.randGen.leaf o.positionMap).symm
    · rw [Call.prepare_positionMap_of_ne hbi]
      exact h b hb
  have hrun : Stable (Assigned i o.randGen.leaf) (Assigned i o.randGen.leaf)
      (accessHandler op i (o.positionMap i) o.randGen.leaf newData) := accessHandler_assigned hi
  apply (hrun _ hentry).imp
  · intro _ u hu
    exact ⟨hu.current, hu.full⟩
  · intro _ u hu
    exact ⟨hu.current, hu.full⟩

theorem access_positionMap (codec : Codec Node) (o : Oram) (op : Operation) (i : ℕ)
    (newData : Str) :
    ((Call.access op i newData).next codec o).positionMap i = o.randGen.leaf := by
  rw [Call.next, (handled_frame _ _ _ _ _ _).positionMap]
  exact Function.update_self i o.randGen.leaf o.positionMap

theorem access_randGen (codec : Codec Node) (o : Oram) (op : Operation) (i : ℕ) (newData : Str) :
    ((Call.access op i newData).next codec o).randGen = o.randGen.advance := by
  rw [Call.next, (handled_frame _ _ _ _ _ _).randGen]
  rfl

theorem drawsLeaf_of_current {m : ℤ → Option Str} {answer : Str} (hm : Holds o m)
    (hs : Shaped o) (h : Current o) (hi : i < 2 ^ 31)
    (hcall : (access op i newData).run o = .ok answer u) (hu : Current u) : DrawsLeaf o i := by
  intro b hb hbi
  let c : Call := .access op i newData
  have hc : c.InRange := hi
  have hheld : b ∈ held o := (stored_iff_held hm.wellFormed).mp hb
  have hindex : b.index = (i : ℤ) := by
    obtain ⟨hlow, hhigh⟩ := hs.indexed b hheld
    rw [toUnsigned] at hbi
    omega
  have hrun : (c.run ObjectArchive.nodeCodec).run o = .ok answer u := hcall
  obtain ⟨_, rfl⟩ := Call.run_ok_next hm.wellFormed hrun
  have hnext := next_wellFormed hm.wellFormed hc ObjectArchive.nodeCodec
  have hmap := access_positionMap ObjectArchive.nodeCodec o op i newData
  have hfound := mem_stash_of_held hm.wellFormed hc (hm.placed i hi) hheld hindex
  have he := next_effect hm.wellFormed hc ObjectArchive.nodeCodec
  generalize hbefore : held o = before at he
  generalize hafter : held (c.next ObjectArchive.nodeCodec o) = after at he
  generalize c.answer o = answer at he
  cases he with
  | hit d rest hd hmem hmem' =>
    have hdheld : d ∈ held o := by
      rw [hbefore, hmem]
      exact Multiset.mem_cons_self d rest
    have hold := h d ((stored_iff_held hm.wellFormed).mpr hdheld)
    have hleft : written op newData d ∈ held (c.next ObjectArchive.nodeCodec o) := by
      rw [hafter, hmem']
      exact Multiset.mem_cons_self _ rest
    have hnew := hu _ ((stored_iff_held hnext).mpr hleft)
    have hkeeps : (written op newData d).leafId = d.leafId := by cases op <;> rfl
    have hdi : toUnsigned d.index = i := (congrArg toUnsigned hd).trans (toUnsigned_natCast hi)
    rw [hkeeps, written_index, hdi, hmap, hold, hdi] at hnew
    exact (Int.ofNat.inj hnew).symm
  | miss hnone _ => exact absurd hindex (hnone b hfound)

section Runs

variable {bucketSize numBlocks : ℕ} {storage : Storage} {randGen : RandomForOram}

theorem nothing_stored
    (hbuild : construct.run (blank bucketSize numBlocks storage randGen) = .ok ⟨⟩ o) (b : Block) :
    ¬ Stored o b := by
  have hfresh := construct_fresh hbuild
  rw [stored_iff_held hfresh.wellFormed, hfresh.nothing_held]
  exact Multiset.notMem_zero b

theorem accessed_current
    (hbuild : construct.run (blank bucketSize numBlocks storage randGen) = .ok ⟨⟩ o)
    (h : Accessed DrawsLeaf o u) : Current u ∧ u.maxSize = u.bucketSize := by
  induction h with
  | start =>
    refine ⟨?_, (construct_fresh hbuild).wellFormed.max_eq⟩
    intro b hb
    exact absurd hb (nothing_stored hbuild b)
  | step u v op i newData _ hi hdraw hlead ih =>
    rcases hlead with ⟨a, hrun⟩ | ⟨e, hrun⟩
    · exact (access_current hi ih.2 ih.1 hdraw).post_of_ok hrun
    · exact (access_current hi ih.2 ih.1 hdraw).bad_of_error hrun

theorem written_twice
    (hbuild : construct.run (blank bucketSize numBlocks storage randGen) = .ok ⟨⟩ o)
    (hs : ∀ k, storage.fails k = false) (hi : i < 2 ^ 31) (first second : Str) :
    ∃ w u, Leads (access .write i first) o w ∧ Leads (access .write i second) w u ∧
      (DrawsLeaf w i ↔ o.randGen.advance.leaf = o.randGen.leaf) ∧ (Current u ↔ DrawsLeaf w i) := by
  have hlt : i < 2 ^ 32 := by omega
  let codec := ObjectArchive.nodeCodec
  let c : Call := .access .write i first
  let d : Call := .access .write i second
  have hc : c.InRange := hi
  have hr := reliable_construct hs hbuild
  have hm := holds_construct hbuild
  have hmw : Holds (c.next codec o) (store codec (fun _ => none) c) := (holds_next hm hc codec).1
  have hfirst := Call.run_ok hr hm.wellFormed codec c
  have hsecond := Call.run_ok (next_reliable hr codec) hmw.wellFormed codec d
  have hcur : Current (c.next codec o) :=
    ((access_current hlt hm.wellFormed.max_eq (fun b hb => absurd hb (nothing_stored hbuild b))
      fun b hb => absurd hb (nothing_stored hbuild b)).post_of_ok hfirst).1
  refine ⟨c.next codec o, d.next codec (c.next codec o), Or.inl ⟨_, hfirst⟩, Or.inl ⟨_, hsecond⟩,
    ?_, ?_⟩
  · have hdraw : (c.next codec o).randGen.leaf = (c.next codec o).positionMap i ↔
        o.randGen.advance.leaf = o.randGen.leaf := by
      rw [access_randGen, access_positionMap]
    rw [← hdraw]
    constructor
    · intro h
      have hfound : store codec (fun _ => none) c i = some first := by
        simp [store, c, Call.op, Call.index, Call.data]
      obtain ⟨b, hb, hbi⟩ := hmw.blocks.present i first hfound
      exact h b ((stored_iff_held hmw.wellFormed).mpr hb) (hbi ▸ toUnsigned_natCast hi)
    · intro h b _ _
      exact h
  · constructor
    · intro hu
      exact drawsLeaf_of_current hmw
        ((shaped_construct hbuild).next hm.wellFormed hc codec) hcur hi hsecond hu
    · intro hdraw
      exact ((access_current hlt hmw.wellFormed.max_eq hcur hdraw).post_of_ok hsecond).1

/-- Where every call draws the leaf that the blocks stored for its address have, every state
reached has current leaves only, also after calls that throw. A call that returns in such a state
and draws another leaf leaves a block that is not current. -/
theorem block_leaves_current (codec : Codec Node)
    (hbuild : construct.run (blank bucketSize numBlocks storage randGen) = .ok ⟨⟩ o) :
    (∀ u, Accessed DrawsLeaf o u → Current u) ∧
      ∀ calls answers u, (∀ c ∈ calls, Call.InRange c) →
        (runAll codec calls).run o = .ok answers u → Current u →
        ∀ op, ∀ i < 2 ^ 31, ∀ newData answer v, (access op i newData).run u = .ok answer v →
          (Current v ↔ DrawsLeaf u i) := by
  constructor
  · intro u hu
    exact (accessed_current hbuild hu).1
  · intro calls answers u hcalls hrun hcur op i hi newData answer v hcall
    have hm := holds_of_runAll (holds_construct hbuild) hcalls hrun
    have hs := (runAll_shaped (holds_construct hbuild) (shaped_construct hbuild) codec
      hcalls).post_of_ok hrun
    constructor
    · intro hv
      exact drawsLeaf_of_current hm hs.1 hcur hi hcall hv
    · intro hdraw
      have hlt : i < 2 ^ 32 := by omega
      exact ((access_current hlt hm.wellFormed.max_eq hcur hdraw).post_of_ok hcall).1

end Runs

theorem block_leaves_current_same_leaf :
    ∃ o w u, construct.run (blank 1 2 .new ⟨0, fun _ => 0, 0⟩) = .ok ⟨⟩ o ∧
      Leads (access .write 0 [97]) o w ∧ Leads (access .write 0 [98]) w u ∧ Current u := by
  have hbuild : ∃ o, construct.run (blank 1 2 .new ⟨0, fun _ => 0, 0⟩) = .ok ⟨⟩ o := ⟨_, rfl⟩
  obtain ⟨o, hbuild⟩ := hbuild
  obtain ⟨w, u, hfirst, hsecond, hdraw, _⟩ :=
    written_twice hbuild (fun _ => rfl) (i := 0) (by decide) [97] [98]
  have hsame : o.randGen.advance.leaf = o.randGen.leaf := by
    rw [(construct_fresh hbuild).randGen]
    rfl
  have hsteps : Accessed DrawsLeaf o u :=
    .step w u .write 0 [98]
      (.step o w .write 0 [97] .start (by decide)
        (fun b hb => absurd hb (nothing_stored hbuild b)) hfirst)
      (by decide) (hdraw.mpr hsame) hsecond
  exact ⟨o, w, u, hbuild, hfirst, hsecond,
    (block_leaves_current ObjectArchive.nodeCodec hbuild).1 u hsteps⟩

/-- The second write of an address leaves its block with the leaf of the first. -/
theorem overwritten_block_not_current :
    ∃ o u, construct.run (blank 1 2 .new ⟨0, fun k => k, 0⟩) = .ok ⟨⟩ o ∧
      Accessed (fun _ _ => True) o u ∧ ¬ Current u := by
  obtain ⟨o, hbuild⟩ := construct_small
  obtain ⟨w, u, hfirst, hsecond, hdraw, hcur⟩ :=
    written_twice hbuild (fun _ => rfl) (i := 0) (by decide) [97] [98]
  have hother : o.randGen.advance.leaf ≠ o.randGen.leaf := by
    rw [(construct_fresh hbuild).randGen, (construct_fresh hbuild).wellFormed.leaves_eq,
      (construct_fresh hbuild).numLevels]
    decide
  exact ⟨o, u, hbuild, .step w u .write 0 [98] (.step o w .write 0 [97] .start (by decide) trivial
    hfirst) (by decide) trivial hsecond, fun h => hother (hdraw.mp (hcur.mp h))⟩

end BlockLeaves
