import SseSeal.CallTrace
import SseSeal.OramMemory

/-! What the structure looks like between calls: full buckets, one block for each index, every
block on the path to the leaf of its index. The storage is only asked for buckets it has, so
no call throws its range error. -/
namespace OramInvariant

open Bytes Objects OramReadPathEviction StateExcept PathTree OramEviction OramAccess OramBlocks
open OramCalls OramMemory CallTrace

variable {o u : Oram} {c : Call} {codec : Codec Node} {leaf l : ℕ} {levels : List ℕ}

def Sized (o : Oram) : Prop := ∀ p < o.numBuckets, (o.storage.buckets p).length = o.bucketSize

theorem fullBucket_length : (fullBucket leaf l o).length = o.bucketSize := by
  have hle : (evicted leaf l o).length ≤ o.bucketSize := List.length_take_le _ _
  rw [fullBucket, List.length_append, List.length_replicate]
  omega

theorem evictStep_buckets (p : ℕ) : (evictStep leaf l o).storage.buckets p =
    if p = o.P leaf l then fullBucket leaf l o else o.storage.buckets p := by
  by_cases hp : p = o.P leaf l
  · subst hp
    simp [evictStep, Oram.storeBucket]
  · simp [evictStep, Oram.storeBucket, Oram.logCall, evictStash, hp]

theorem evictStep_sized (h : Sized o) : Sized (evictStep leaf l o) := by
  intro p hp
  have hf := evictStep_frame leaf l o
  rw [hf.numBuckets] at hp
  rw [evictStep_buckets, hf.bucketSize]
  split
  · exact fullBucket_length
  · exact h p hp

theorem evictPath_sized (h : Sized o) : Sized (evictPath leaf levels o) := by
  induction levels generalizing o with
  | nil => exact h
  | cons l levels ih => exact ih (evictStep_sized h)

theorem prepare_sized (h : Sized o) : Sized (c.prepare o) := by
  intro p hp
  rw [Call.prepare_numBuckets] at hp
  rw [Call.prepare_storage, Call.prepare_bucketSize]
  exact h p hp

theorem next_sized (h : Sized o) : Sized (c.next codec o) := by
  have hopen : Sized (accessed c.op c.index (o.positionMap c.index) (c.newLeaf o) (c.data codec)
      (c.prepare o)) := by
    have hf := accessed_frame c.op c.index (o.positionMap c.index) (c.newLeaf o) (c.data codec)
      (c.prepare o)
    have hb : (accessed c.op c.index (o.positionMap c.index) (c.newLeaf o) (c.data codec)
        (c.prepare o)).storage.buckets = (c.prepare o).storage.buckets := readPath_buckets
    intro p hp
    rw [hf.numBuckets] at hp
    rw [hb, hf.bucketSize]
    exact prepare_sized h p hp
  exact evictPath_sized hopen

/-- The blocks held are those of indices that both `int` and `unsigned int` can hold. -/
def Indexed (o : Oram) : Prop := ∀ b ∈ held o, 0 ≤ b.index ∧ b.index < 2 ^ 31

theorem next_indexed (hw : WellFormed o) (hc : c.InRange) (h : Indexed o) :
    Indexed (c.next codec o) := by
  have hlt := Call.index_lt hc
  have he := next_effect hw hc codec
  unfold Indexed at h ⊢
  generalize held o = before at he h
  generalize held (c.next codec o) = after at he ⊢
  generalize c.answer o = answer at he
  cases he with
  | hit b rest _ hbefore hafter =>
    intro d hd
    rw [hafter] at hd
    rcases Multiset.mem_cons.mp hd with hd | hd
    · rw [hd, written_index]
      exact h b (hbefore ▸ Multiset.mem_cons_self b rest)
    · exact h d (hbefore ▸ Multiset.mem_cons_of_mem hd)
  | miss _ hafter =>
    intro d hd
    cases hop : c.op with
    | read =>
      rw [hop] at hafter
      exact h d (hafter ▸ hd)
    | write =>
      rw [hop] at hafter
      rw [hafter] at hd
      rcases Multiset.mem_cons.mp hd with hd | hd
      · subst d
        have hup : (c.index : ℤ) < 2 ^ 31 := by exact_mod_cast hlt
        exact ⟨Int.natCast_nonneg _, hup⟩
      · exact h d hd

structure Representation (o : Oram) : Prop where
  sized : ∀ p < o.numBuckets, (o.storage.buckets p).length = o.bucketSize
  /-- No index is held twice, in the stash and all buckets together. -/
  unique : ((held o).map Block.index).Nodup
  /-- The buckets of level `l` are those numbered from `2 ^ l - 1` to `2 ^ (l + 1) - 2`. -/
  lodged : ∀ l < o.numLevels, ∀ p, 2 ^ l - 1 ≤ p → p < 2 ^ (l + 1) - 1 →
    ∀ b ∈ real (o.storage.buckets p), p = o.P (o.positionMap (toUnsigned b.index)) l
  positions_lt : ∀ i, o.positionMap i < o.numLeaves

structure Shaped (o : Oram) : Prop where
  sized : Sized o
  indexed : Indexed o

theorem Shaped.next (h : Shaped o) (hw : WellFormed o) (hc : c.InRange) (codec : Codec Node) :
    Shaped (c.next codec o) := ⟨next_sized h.sized, next_indexed hw hc h.indexed⟩

theorem representation {m : ℤ → Option Str} (h : Holds o m) (hs : Shaped o) :
    Representation o := by
  have hw := h.wellFormed
  refine ⟨hs.sized, h.blocks.unique, ?_, hw.positions_lt⟩
  intro l hl p hlow hhigh b hb
  have hp : p < o.numBuckets := by
    have hpow : 2 ^ (l + 1) ≤ 2 ^ o.numLevels := Nat.pow_le_pow_right (by omega) hl
    rw [hw.buckets_eq]
    omega
  obtain ⟨hpos, hlt⟩ := hs.indexed b (mem_held_of_mem_bucket hp hb)
  have hj : b.index.toNat < 2 ^ 31 := by omega
  have hcast : b.index = (b.index.toNat : ℤ) := by omega
  obtain ⟨k, hk, he⟩ := h.placed b.index.toNat hj p hp b hb hcast
  -- the bucket is at one level only
  have hleaf : o.positionMap (toUnsigned b.index) < 2 ^ (o.numLevels - 1) :=
    hw.leaves_eq ▸ hw.positions_lt _
  have hbelow := bucketAt_lt_next hleaf hk
  have habove : 2 ^ k - 1 ≤ bucketAt o.numLevels (o.positionMap (toUnsigned b.index)) k :=
    bucketAt_ge
  rw [← P_eq, ← he] at hbelow habove
  have hlk : l = k := by
    rcases lt_trichotomy l k with hlk | hlk | hlk
    · have hpow : 2 ^ (l + 1) ≤ 2 ^ k := Nat.pow_le_pow_right (by omega) hlk
      omega
    · exact hlk
    · have hpow : 2 ^ (k + 1) ≤ 2 ^ l := Nat.pow_le_pow_right (by omega) hlk
      omega
  rw [hlk]
  exact he

def StorageCall.position : StorageCall → ℕ
  | .read position => position
  | .write position => position

def WithinStorage (o u : Oram) : Prop := ∃ made, u.storage.calls = o.storage.calls ++ made ∧
  ∀ call ∈ made, StorageCall.position call < o.numBuckets

theorem WithinStorage.refl (o : Oram) : WithinStorage o o := ⟨[], by simp, by simp⟩

theorem WithinStorage.trans {v : Oram} (h : WithinStorage o u) (k : WithinStorage u v)
    (hn : u.numBuckets = o.numBuckets) : WithinStorage o v := by
  obtain ⟨made, hmade, hin⟩ := h
  obtain ⟨more, hmore, hin'⟩ := k
  refine ⟨made ++ more, ?_, ?_⟩
  · rw [hmore, hmade, List.append_assoc]
  · intro call hcall
    rcases List.mem_append.mp hcall with hcall | hcall
    · exact hin call hcall
    · exact hn ▸ hin' call hcall

structure Confined (o u : Oram) : Prop where
  frame : Frame o u
  within : WithinStorage o u

theorem Confined.refl (o : Oram) : Confined o o := ⟨Frame.refl o, WithinStorage.refl o⟩

def Failed (o : Oram) (e : StorageError) (u : Oram) : Prop := e = .rpc ∧ WithinStorage o u

theorem Confined.stash (h : Confined o u) (stash : List Block) :
    Confined o { u with stash := stash } :=
  ⟨h.frame.trans ⟨rfl, rfl, rfl, rfl, rfl, rfl, rfl, rfl, rfl⟩, h.within⟩

theorem Confined.logCall (h : Confined o u) (call : StorageCall)
    (hp : StorageCall.position call < o.numBuckets) : Confined o (u.logCall call) := by
  refine ⟨h.frame.trans ⟨rfl, rfl, rfl, rfl, rfl, rfl, rfl, rfl, rfl⟩, ?_⟩
  refine h.within.trans ⟨[call], rfl, ?_⟩ h.frame.numBuckets
  intro d hd
  rw [List.mem_singleton.mp hd, h.frame.numBuckets]
  exact hp

section Call

variable (hw : WellFormed o)
include hw

theorem readBucket_confined {position : ℕ} (hp : position < o.numBuckets) (h : Confined o u) :
    Ends (readBucket position) u (fun _ v => Confined o v) (Failed o) := by
  have hlog := h.logCall (.read position) hp
  have hc : ¬ u.storage.capacity ≤ position := by
    rw [h.frame.capacity, hw.capacity_eq]
    omega
  cases hf : u.failsNow with
  | false =>
    refine ends_ok (a := u.storage.buckets position) ?_ hlog
    simp only [readBucket, EStateM.run, if_neg hc, hf]
    rfl
  | true =>
    refine ends_error ?_ ⟨rfl, hlog.within⟩
    simp only [readBucket, EStateM.run, if_neg hc, hf]
    rfl

theorem writeBucket_confined {position : ℕ} {bucket : Bucket} (hp : position < o.numBuckets)
    (h : Confined o u) :
    Ends (writeBucket position bucket) u (fun _ v => Confined o v) (Failed o) := by
  have hlog := h.logCall (.write position) hp
  have hc : ¬ u.storage.capacity ≤ position := by
    rw [h.frame.capacity, hw.capacity_eq]
    omega
  cases hf : u.failsNow with
  | false =>
    refine ends_ok (a := ⟨⟩) (t := (u.logCall (.write position)).storeBucket position bucket) ?_
      ⟨hlog.frame.trans ⟨rfl, rfl, rfl, rfl, rfl, rfl, rfl, rfl, rfl⟩, hlog.within⟩
    simp only [writeBucket, EStateM.run, if_neg hc, hf]
    rfl
  | true =>
    refine ends_error ?_ ⟨rfl, hlog.within⟩
    simp only [writeBucket, EStateM.run, if_neg hc, hf]
    rfl

variable (hleaf : leaf < o.numLeaves)
include hleaf

theorem position_lt (hf : Frame o u) (hl : l < o.numLevels) : u.P leaf l < o.numBuckets := by
  rw [hf.P]
  exact (openLevels hw hleaf).bound l (List.mem_range.mpr hl)

theorem readLevel_confined (hl : l < o.numLevels) (h : Confined o u) :
    Ends (readLevel leaf l) u (fun _ v => Confined o v) (Failed o) := by
  have hget : Ends (get : OramM Oram) u (fun p v => p = u ∧ v = u) (Failed o) :=
    ends_ok rfl ⟨rfl, rfl⟩
  apply hget.bind
  rintro _ _ ⟨rfl, rfl⟩
  apply (readBucket_confined hw (position_lt hw hleaf h.frame hl) h).bind
  intro blocks v hv
  exact ends_ok rfl (hv.stash _)

theorem evictLevel_confined (hl : l < o.numLevels) (h : Confined o u) :
    Ends (evictLevel leaf l) u (fun _ v => Confined o v) (Failed o) := by
  have hmax : u.maxSize = u.bucketSize := by rw [h.frame.maxSize, h.frame.bucketSize, hw.max_eq]
  have hwrite : Ends (writeBucket (u.P leaf l) (fullBucket leaf l u)) (evictStash leaf l u)
      (fun _ v => Confined o v) (Failed o) :=
    writeBucket_confined hw (position_lt hw hleaf h.frame hl) (h.stash _)
  rwa [Ends, evictLevel_run hmax]

theorem accessHandler_confined (op : Operation) (i : ℕ) (newLeaf : ℤ) (newData : Str) :
    Ends (accessHandler op i leaf newLeaf newData) o (fun _ v => Confined o v) (Failed o) := by
  have hget : Ends (get : OramM Oram) o (fun p v => p = o ∧ v = o) (Failed o) :=
    ends_ok rfl ⟨rfl, rfl⟩
  apply hget.bind
  intro p v hpv
  obtain ⟨rfl, rfl⟩ := hpv
  have hread : Ends ((List.range v.numLevels).forM (readLevel leaf)) v
      (fun _ u => Confined v u) (Failed v) :=
    ends_forM (fun l hl u hu => readLevel_confined hw hleaf (List.mem_range.mp hl) hu)
      (Confined.refl v)
  apply hread.bind
  intro _ u hu
  have hstash : Ends (accessStash op i newLeaf newData) u (fun _ w => Confined v w)
      (Failed v) := ends_ok (accessStash_run op i newLeaf newData u) (hu.stash _)
  apply hstash.bind
  intro data w hv
  have hevict : Ends ((List.range v.numLevels).reverse.forM (evictLevel leaf)) w
      (fun _ u => Confined v u) (Failed v) :=
    ends_forM (fun l hl u hu => evictLevel_confined hw hleaf
      (List.mem_range.mp (List.mem_reverse.mp hl)) hu) hv
  apply hevict.bind
  intro _ x hx
  exact ends_ok rfl hx

end Call

theorem call_within (hw : WellFormed o) (codec : Codec Node) (c : Call) : Ends (c.run codec) o
    (fun _ v => v = c.next codec o ∧ WithinStorage o v) (Failed o) := by
  have hwp := Call.prepare_wellFormed (c := c) hw
  have hleaf : o.positionMap c.index < (c.prepare o).numLeaves := by
    rw [Call.prepare_numLeaves]
    exact hw.positions_lt _
  have hwithin : ∀ v, WithinStorage (c.prepare o) v → WithinStorage o v := by
    intro v hv
    rwa [WithinStorage, Call.prepare_storage, Call.prepare_numBuckets] at hv
  have hends := accessHandler_confined hwp hleaf c.op c.index (c.newLeaf o) (c.data codec)
  rw [Ends, ← Call.run_eq] at hends
  rcases hends with ⟨answer, v, hrun, hv⟩ | ⟨e, v, hrun, he, hv⟩
  · exact ends_ok hrun ⟨(Call.run_ok_next hw hrun).2, hwithin v hv.within⟩
  · exact ends_error hrun ⟨he, hwithin v hv⟩

/-- A run whose calls all return keeps the shape, and one that throws has met a failing server. -/
theorem runAll_shaped {m : ℤ → Option Str} (h : Holds o m) (hs : Shaped o) (codec : Codec Node)
    {calls : List Call} (hc : ∀ c ∈ calls, c.InRange) :
    Ends (runAll codec calls) o (fun _ u => Shaped u ∧ WithinStorage o u) (Failed o) := by
  induction calls generalizing o m with
  | nil => exact ends_ok rfl ⟨hs, WithinStorage.refl o⟩
  | cons c calls ih =>
    have hin := hc c List.mem_cons_self
    have hnum : (c.next codec o).numBuckets = o.numBuckets := by
      rw [Call.next, (handled_frame _ _ _ _ _ _).numBuckets, Call.prepare_numBuckets]
    rcases call_within h.wellFormed codec c with
      ⟨answer, v, hrun, hv, hwithin⟩ | ⟨e, v, hrun, he⟩
    · subst hv
      rcases ih (holds_next h hin codec).1 (hs.next h.wellFormed hin codec)
        (fun d hd => hc d (List.mem_cons_of_mem _ hd)) with
        ⟨answers, w, hrest, hw, hmade⟩ | ⟨e, w, hrest, he, hmade⟩
      · refine ends_ok (a := answer :: answers) ?_ ⟨hw, hwithin.trans hmade hnum⟩
        exact (run_bind_ok hrun).trans ((run_bind_ok hrest).trans (run_pure _ _))
      · refine ends_error ?_ ⟨he, hwithin.trans hmade hnum⟩
        exact (run_bind_ok hrun).trans (run_bind_error hrest)
    · exact ends_error (run_bind_error hrun) he

theorem shaped_construct {bucketSize numBlocks : ℕ} {storage : Storage} {randGen : RandomForOram}
    (h : construct.run (blank bucketSize numBlocks storage randGen) = .ok ⟨⟩ o) : Shaped o := by
  constructor
  · obtain rfl := construct_ok h
    intro p hp
    change (if p < 2 ^ (Nat.clog 2 numBlocks + 1) - 1 then padBucket bucketSize [] bucketSize
      else []).length = bucketSize
    have hlt : p < 2 ^ (Nat.clog 2 numBlocks + 1) - 1 := hp
    rw [if_pos hlt, padBucket_eq _ _ _ (by simp)]
    simp
  · intro b hb
    rw [(construct_fresh h).nothing_held] at hb
    exact absurd hb (Multiset.notMem_zero b)

/-- Every run of calls on a new instance, whatever the random values, ends in a state that
satisfies the invariant, or with the exception of a failing server; it asks the storage for
buckets it has. -/
theorem representation_invariant (codec : Codec Node) {bucketSize numBlocks : ℕ}
    {storage : Storage} {randGen : RandomForOram}
    (h : construct.run (blank bucketSize numBlocks storage randGen) = .ok ⟨⟩ o)
    {calls : List Call} (hc : ∀ c ∈ calls, c.InRange) :
    (∀ answers u, (runAll codec calls).run o = .ok answers u → Representation u) ∧
      (∀ e u, (runAll codec calls).run o = .error e u → e = .rpc) ∧
      ((∀ k, storage.fails k = false) → ∃ answers u, (runAll codec calls).run o = .ok answers u) ∧
      ∃ made, (final ((runAll codec calls).run o)).storage.calls = storage.calls ++ made ∧
        ∀ call ∈ made, StorageCall.position call < o.numBuckets := by
  have hends := runAll_shaped (holds_construct h) (shaped_construct h) codec hc
  refine ⟨?_, ?_, ?_, ?_⟩
  · intro answers u hrun
    exact representation (holds_of_runAll (holds_construct h) hc hrun)
      (hends.post_of_ok hrun).1
  · intro e u hrun
    exact (hends.bad_of_error hrun).1
  · intro hs
    obtain ⟨answers, u, hrun, _⟩ :=
      holds_runAll (reliable_construct hs h) (holds_construct h) codec hc
    exact ⟨answers, u, hrun⟩
  · have hmade : WithinStorage o (final ((runAll codec calls).run o)) := by
      rcases hends with ⟨answers, u, hrun, _, hu⟩ | ⟨e, u, hrun, _, hu⟩
      · rw [hrun]
        exact hu
      · rw [hrun]
        exact hu
    obtain ⟨made, hcalls, hin⟩ := hmade
    refine ⟨(List.range o.numBuckets).map .write ++ made, ?_, ?_⟩
    · rw [hcalls, (construct_fresh h).calls, List.append_assoc]
    · intro call hcall
      rcases List.mem_append.mp hcall with hcall | hcall
      · obtain ⟨p, hp, rfl⟩ := List.mem_map.mp hcall
        exact List.mem_range.mp hp
      · exact hin call hcall

theorem representation_invariant_mixed :
    ∃ o answers u, construct.run (blank 1 2 .new ⟨0, fun k => k, 0⟩) = .ok ⟨⟩ o ∧
      (runAll ObjectArchive.nodeCodec [.access .write 1 [104, 105],
        .direct .write (.fresh 0 [107] [118]), .access .read 1 []]).run o = .ok answers u ∧
      Representation u := by
  have hs : ∀ k, Storage.new.fails k = false := fun _ => rfl
  have hc : ∀ c ∈ [Call.access .write 1 [104, 105], .direct .write (.fresh 0 [107] [118]),
      .access .read 1 []], c.InRange := by
    simp [Call.InRange, Node.fresh]
  obtain ⟨o, hbuild⟩ := construct_small
  obtain ⟨hok, _, hruns, _⟩ := representation_invariant ObjectArchive.nodeCodec hbuild hc
  obtain ⟨answers, u, hrun⟩ := hruns hs
  exact ⟨o, answers, u, hbuild, hrun, hok answers u hrun⟩

end OramInvariant
