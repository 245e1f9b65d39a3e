import SseSeal.OramReadPathEviction
import SseSeal.PathTree
import SseSeal.ListPicking
import Mathlib.Algebra.BigOperators.Group.Finset.Basic
import Mathlib.Algebra.Order.Group.Multiset

/-! What the loops of `access_handler` do. A successful iteration is a pure step;
an iteration that throws has moved blocks of the stash at most. The blocks held in
the stash and in the buckets that are not part of the open path are conserved. -/
namespace OramEviction

open Bytes Objects OramReadPathEviction StateExcept PathTree ListPicking

def real (bucket : Bucket) : List Block := bucket.filter (·.index != -1)

/-- What the fields of a live instance satisfy between any two calls: the geometry fixed
by the constructor, leaves in range, and no dummy block in the stash. -/
structure WellFormed (o : Oram) : Prop where
  levels_pos : 0 < o.numLevels
  buckets_eq : o.numBuckets = 2 ^ o.numLevels - 1
  leaves_eq : o.numLeaves = 2 ^ (o.numLevels - 1)
  max_eq : o.maxSize = o.bucketSize
  bound_eq : o.randGen.bound = o.numLeaves
  capacity_eq : o.storage.capacity = o.numBuckets
  positions_lt : ∀ i, o.positionMap i < o.numLeaves
  stash_real : ∀ b ∈ o.stash, b.index ≠ -1

def Reliable (o : Oram) : Prop := ∀ k, o.storage.fails k = false

theorem P_eq (o : Oram) (leaf level : ℕ) : o.P leaf level = bucketAt o.numLevels leaf level := by
  simp [Oram.P, bucketAt, Nat.one_shiftLeft, Nat.shiftRight_eq_div_pow]

def readStep (leaf i : ℕ) (o : Oram) : Oram :=
  { o.logCall (.read (o.P leaf i)) with
    stash := o.stash ++ real (o.storage.buckets (o.P leaf i)) }

/-- The blocks of the stash that go to the bucket at a level. -/
def evicted (leaf l : ℕ) (o : Oram) : List Block :=
  (o.stash.filter fun b => o.P leaf l = o.P (o.positionMap (toUnsigned b.index)) l).take
    o.bucketSize

def evictStash (leaf l : ℕ) (o : Oram) : Oram :=
  { o with stash := eraseKeys Block.index ((evicted leaf l o).map Block.index) o.stash }

def fullBucket (leaf l : ℕ) (o : Oram) : Bucket :=
  evicted leaf l o ++ List.replicate (o.bucketSize - (evicted leaf l o).length) Block.dummy

def evictStep (leaf l : ℕ) (o : Oram) : Oram :=
  ((evictStash leaf l o).logCall (.write (o.P leaf l))).storeBucket (o.P leaf l)
    (fullBucket leaf l o)

theorem collect_eq (n : ℕ) (fits : Block → Bool) (stash : List Block) (bucket : Bucket)
    (bids : List ℤ) (hn : bucket.length ≤ n) :
    collect n n fits stash (bucket, bids, bucket.length) =
      (bucket ++ (stash.filter fits).take (n - bucket.length),
        bids ++ ((stash.filter fits).take (n - bucket.length)).map Block.index,
        bucket.length + ((stash.filter fits).take (n - bucket.length)).length) := by
  induction stash generalizing bucket bids with
  | nil => simp [collect]
  | cons b stash ih =>
    by_cases hfull : n ≤ bucket.length
    · simp [collect, hfull, Nat.sub_eq_zero_of_le hfull]
    have hroom : bucket.length < n := by omega
    by_cases hf : fits b
    · have hlen : (bucket ++ [b]).length = bucket.length + 1 := by simp
      have hrec := ih (bucket ++ [b]) (bids ++ [b.index]) (by omega)
      have hsub : n - bucket.length = n - (bucket.length + 1) + 1 := by omega
      rw [hlen] at hrec
      rw [collect, if_neg hfull, if_pos hf, addBlock, if_pos hroom, hrec,
        List.filter_cons_of_pos hf, hsub, List.take_succ_cons]
      simp [Nat.add_assoc, Nat.add_comm]
    · rw [collect, if_neg hfull, if_neg hf, ih bucket bids hn, List.filter_cons_of_neg hf]

theorem padBucket_eq (n : ℕ) (bucket : Bucket) (k : ℕ) (h : bucket.length + k ≤ n) :
    padBucket n bucket k = bucket ++ List.replicate k Block.dummy := by
  induction k generalizing bucket with
  | zero => simp [padBucket]
  | succ k ih =>
    rw [padBucket, addBlock, if_pos (by omega), ih _ (by simp; omega), List.replicate_succ]
    simp

/-- The next storage call at this position does not throw. -/
def Answers (o : Oram) (position : ℕ) : Prop :=
  position < o.storage.capacity ∧ o.failsNow = false

theorem readLevel_ok {leaf i : ℕ} {o : Oram} (h : Answers o (o.P leaf i)) :
    (readLevel leaf i).run o = .ok ⟨⟩ (readStep leaf i o) := by
  have hread : (readBucket (o.P leaf i)).run o =
      .ok (o.storage.buckets (o.P leaf i)) (o.logCall (.read (o.P leaf i))) := by
    simp [readBucket, EStateM.run, Nat.not_le.mpr h.1, h.2]
  exact (run_bind_ok (run_get o)).trans (run_bind_ok hread)

theorem readLevel_error {leaf i : ℕ} {o : Oram} (h : ¬ Answers o (o.P leaf i)) :
    ∃ e, (readLevel leaf i).run o = .error e (o.logCall (.read (o.P leaf i))) := by
  have hread : ∃ e, (readBucket (o.P leaf i)).run o =
      .error e (o.logCall (.read (o.P leaf i))) := by
    by_cases hc : o.storage.capacity ≤ o.P leaf i
    · exact ⟨.outOfRange (o.P leaf i) o.storage.capacity, by
        simp only [readBucket, EStateM.run, if_pos hc]⟩
    · have hf : o.failsNow = true := by
        by_contra hf
        exact h ⟨by omega, by simpa using hf⟩
      exact ⟨.rpc, by simp only [readBucket, EStateM.run, if_neg hc, hf, if_true]⟩
  obtain ⟨e, he⟩ := hread
  exact ⟨e, (run_bind_ok (run_get o)).trans (run_bind_error he)⟩

theorem collect_evicted (leaf l : ℕ) (o : Oram) : collect o.bucketSize o.bucketSize
    (fun b => decide (o.P leaf l = o.P (o.positionMap (toUnsigned b.index)) l)) o.stash
    ([], [], 0) = (evicted leaf l o, (evicted leaf l o).map Block.index,
      (evicted leaf l o).length) := by
  simpa [evicted] using collect_eq o.bucketSize
    (fun b => decide (o.P leaf l = o.P (o.positionMap (toUnsigned b.index)) l)) o.stash [] []
    (Nat.zero_le _)

theorem padBucket_evicted (leaf l : ℕ) (o : Oram) : padBucket o.bucketSize (evicted leaf l o)
    (o.bucketSize - (evicted leaf l o).length) = fullBucket leaf l o := by
  have hlen : (evicted leaf l o).length ≤ o.bucketSize := List.length_take_le _ _
  exact padBucket_eq _ _ _ (by omega)

theorem evictLevel_run {leaf l : ℕ} {o : Oram} (hmax : o.maxSize = o.bucketSize) :
    (evictLevel leaf l).run o =
      (writeBucket (o.P leaf l) (fullBucket leaf l o)).run (evictStash leaf l o) := by
  have hc : collect o.bucketSize o.maxSize
      (fun b => decide (o.P leaf l = o.P (o.positionMap (toUnsigned b.index)) l)) o.stash
      ([], [], 0) = (evicted leaf l o, (evicted leaf l o).map Block.index,
        (evicted leaf l o).length) := by
    rw [hmax]
    exact collect_evicted leaf l o
  have hpad : padBucket o.maxSize (evicted leaf l o)
      (o.bucketSize - (evicted leaf l o).length) = fullBucket leaf l o := by
    rw [hmax]
    exact padBucket_evicted leaf l o
  refine (run_bind_ok (run_get o)).trans ?_
  dsimp only
  rw [hc]
  refine (run_bind_ok (run_set o _)).trans ?_
  dsimp only
  rw [hpad]
  rfl

theorem evictLevel_ok {leaf l : ℕ} {o : Oram} (hmax : o.maxSize = o.bucketSize)
    (h : Answers o (o.P leaf l)) :
    (evictLevel leaf l).run o = .ok ⟨⟩ (evictStep leaf l o) := by
  rw [evictLevel_run hmax]
  have hc : ¬ (evictStash leaf l o).storage.capacity ≤ o.P leaf l := Nat.not_le.mpr h.1
  have hf : (evictStash leaf l o).failsNow = false := h.2
  simp only [writeBucket, EStateM.run, if_neg hc, hf, Bool.false_eq_true, if_false]
  rfl

theorem evictLevel_error {leaf l : ℕ} {o : Oram} (hmax : o.maxSize = o.bucketSize)
    (h : ¬ Answers o (o.P leaf l)) :
    ∃ e, (evictLevel leaf l).run o =
      .error e ((evictStash leaf l o).logCall (.write (o.P leaf l))) := by
  rw [evictLevel_run hmax]
  by_cases hc : (evictStash leaf l o).storage.capacity ≤ o.P leaf l
  · exact ⟨.outOfRange (o.P leaf l) (evictStash leaf l o).storage.capacity, by
      simp only [writeBucket, EStateM.run, if_pos hc]⟩
  · have hf : (evictStash leaf l o).failsNow = true := by
      by_contra hf
      exact h ⟨Nat.not_le.mp hc, by simpa [evictStash, Oram.failsNow] using hf⟩
    exact ⟨.rpc, by simp only [writeBucket, EStateM.run, if_neg hc, hf, if_true]⟩

theorem readLevel_ok_step {leaf i : ℕ} {o u : Oram} (h : (readLevel leaf i).run o = .ok ⟨⟩ u) :
    u = readStep leaf i o := by
  by_cases ha : Answers o (o.P leaf i)
  · rw [readLevel_ok ha] at h
    cases h
    rfl
  · obtain ⟨e, he⟩ := readLevel_error ha
    rw [he] at h
    cases h

theorem evictLevel_ok_step {leaf l : ℕ} {o u : Oram} (hmax : o.maxSize = o.bucketSize)
    (h : (evictLevel leaf l).run o = .ok ⟨⟩ u) : u = evictStep leaf l o := by
  by_cases ha : Answers o (o.P leaf l)
  · rw [evictLevel_ok hmax ha] at h
    cases h
    rfl
  · obtain ⟨e, he⟩ := evictLevel_error hmax ha
    rw [he] at h
    cases h

theorem readLevel_error_state {leaf i : ℕ} {o u : Oram} {e : StorageError}
    (h : (readLevel leaf i).run o = .error e u) : u = o.logCall (.read (o.P leaf i)) := by
  by_cases ha : Answers o (o.P leaf i)
  · rw [readLevel_ok ha] at h
    cases h
  · obtain ⟨e', he⟩ := readLevel_error ha
    rw [he] at h
    cases h
    rfl

/-- An iteration of the eviction that throws has lost the blocks it took from the stash. -/
theorem evictLevel_error_state {leaf l : ℕ} {o u : Oram} {e : StorageError}
    (hmax : o.maxSize = o.bucketSize) (h : (evictLevel leaf l).run o = .error e u) :
    u = (evictStash leaf l o).logCall (.write (o.P leaf l)) := by
  by_cases ha : Answers o (o.P leaf l)
  · rw [evictLevel_ok hmax ha] at h
    cases h
  · obtain ⟨e', he⟩ := evictLevel_error hmax ha
    rw [he] at h
    cases h
    rfl

/-- The fields that no storage call and no step of `access_handler` changes. -/
structure Frame (o u : Oram) : Prop where
  bucketSize : u.bucketSize = o.bucketSize
  numLevels : u.numLevels = o.numLevels
  numLeaves : u.numLeaves = o.numLeaves
  numBuckets : u.numBuckets = o.numBuckets
  positionMap : u.positionMap = o.positionMap
  maxSize : u.maxSize = o.maxSize
  capacity : u.storage.capacity = o.storage.capacity
  fails : u.storage.fails = o.storage.fails
  randGen : u.randGen = o.randGen

theorem Frame.refl (o : Oram) : Frame o o := ⟨rfl, rfl, rfl, rfl, rfl, rfl, rfl, rfl, rfl⟩

theorem Frame.trans {o u v : Oram} (h : Frame o u) (k : Frame u v) : Frame o v :=
  ⟨k.1.trans h.1, k.2.trans h.2, k.3.trans h.3, k.4.trans h.4, k.5.trans h.5, k.6.trans h.6,
    k.7.trans h.7, k.8.trans h.8, k.9.trans h.9⟩

theorem Frame.P {o u : Oram} (h : Frame o u) : u.P = o.P := by
  funext leaf l
  rw [P_eq, P_eq, h.numLevels]

theorem Frame.reliable {o u : Oram} (h : Frame o u) (hr : Reliable o) : Reliable u := by
  intro k
  rw [h.fails]
  exact hr k

theorem Frame.wellFormed {o u : Oram} (h : Frame o u) (hw : WellFormed o)
    (hs : ∀ b ∈ u.stash, b.index ≠ -1) : WellFormed u where
  levels_pos := h.numLevels ▸ hw.levels_pos
  buckets_eq := by rw [h.numBuckets, h.numLevels, hw.buckets_eq]
  leaves_eq := by rw [h.numLeaves, h.numLevels, hw.leaves_eq]
  max_eq := by rw [h.maxSize, h.bucketSize, hw.max_eq]
  bound_eq := by rw [h.randGen, h.numLeaves, hw.bound_eq]
  capacity_eq := by rw [h.capacity, h.numBuckets, hw.capacity_eq]
  positions_lt := by
    rw [h.positionMap, h.numLeaves]
    exact hw.positions_lt
  stash_real := hs

theorem readStep_frame (leaf i : ℕ) (o : Oram) : Frame o (readStep leaf i o) :=
  ⟨rfl, rfl, rfl, rfl, rfl, rfl, rfl, rfl, rfl⟩

theorem evictStep_frame (leaf l : ℕ) (o : Oram) : Frame o (evictStep leaf l o) :=
  ⟨rfl, rfl, rfl, rfl, rfl, rfl, rfl, rfl, rfl⟩

def readPath (leaf : ℕ) (levels : List ℕ) (o : Oram) : Oram :=
  levels.foldl (fun o i => readStep leaf i o) o

def evictPath (leaf : ℕ) (levels : List ℕ) (o : Oram) : Oram :=
  levels.foldl (fun o l => evictStep leaf l o) o

variable {leaf : ℕ} {levels : List ℕ} {o : Oram}

theorem readPath_concat {l : ℕ} :
    readPath leaf (levels ++ [l]) o = readStep leaf l (readPath leaf levels o) :=
  List.foldl_concat _ _ _ _

theorem evictPath_concat {l : ℕ} :
    evictPath leaf (levels ++ [l]) o = evictStep leaf l (evictPath leaf levels o) :=
  List.foldl_concat _ _ _ _

theorem readPath_frame : Frame o (readPath leaf levels o) := by
  induction levels generalizing o with
  | nil => exact Frame.refl o
  | cons i levels ih => exact (readStep_frame leaf i o).trans ih

theorem evictPath_frame : Frame o (evictPath leaf levels o) := by
  induction levels generalizing o with
  | nil => exact Frame.refl o
  | cons l levels ih => exact (evictStep_frame leaf l o).trans ih

theorem readPath_buckets : (readPath leaf levels o).storage.buckets = o.storage.buckets := by
  induction levels generalizing o with
  | nil => rfl
  | cons i levels ih => exact ih

theorem real_ne_neg_one {bucket : Bucket} {b : Block} (h : b ∈ real bucket) : b.index ≠ -1 := by
  simpa [real] using (List.mem_filter.mp h).2

theorem readPath_stash_real (h : ∀ b ∈ o.stash, b.index ≠ -1) :
    ∀ b ∈ (readPath leaf levels o).stash, b.index ≠ -1 := by
  induction levels generalizing o with
  | nil => exact h
  | cons i levels ih =>
    apply ih
    intro b hb
    rcases List.mem_append.mp hb with hb | hb
    · exact h b hb
    · exact real_ne_neg_one hb

theorem readPath_stash_prefix : o.stash <+: (readPath leaf levels o).stash := by
  induction levels generalizing o with
  | nil => exact List.prefix_refl _
  | cons i levels ih =>
    exact (List.prefix_append o.stash _).trans (ih (o := readStep leaf i o))

theorem evictPath_stash_subset {b : Block} (h : b ∈ (evictPath leaf levels o).stash) :
    b ∈ o.stash := by
  induction levels generalizing o with
  | nil => exact h
  | cons l levels ih => exact mem_of_mem_eraseKeys (ih h)

def heldOutside (away : Finset ℕ) (o : Oram) : Multiset Block :=
  (o.stash : Multiset Block) +
    ∑ p ∈ Finset.range o.numBuckets \ away, (real (o.storage.buckets p) : Multiset Block)

def held (o : Oram) : Multiset Block := heldOutside ∅ o

theorem heldOutside_readStep {away : Finset ℕ} {i : ℕ} (hlt : o.P leaf i < o.numBuckets)
    (hp : o.P leaf i ∉ away) :
    heldOutside (insert (o.P leaf i) away) (readStep leaf i o) = heldOutside away o := by
  have hmem : o.P leaf i ∈ Finset.range o.numBuckets \ away := by simp [hlt, hp]
  change ((o.stash ++ real _ : List Block) : Multiset Block) +
    ∑ p ∈ Finset.range o.numBuckets \ insert (o.P leaf i) away, _ = _
  rw [heldOutside, Finset.sdiff_insert, ← Multiset.coe_add, add_assoc]
  congr 1
  exact Finset.add_sum_erase _ (fun p => (real (o.storage.buckets p) : Multiset Block)) hmem

theorem real_fullBucket {l : ℕ} (h : ∀ b ∈ o.stash, b.index ≠ -1) :
    real (fullBucket leaf l o) = evicted leaf l o := by
  have hev : ∀ b ∈ evicted leaf l o, b.index ≠ -1 := by
    intro b hb
    exact h b (List.mem_filter.mp (List.mem_of_mem_take hb)).1
  rw [real, fullBucket, List.filter_append, List.filter_eq_self.mpr (by simpa using hev),
    List.filter_eq_nil_iff.mpr (by simp [Block.dummy]), List.append_nil]

theorem evicted_perm (leaf l : ℕ) (o : Oram) :
    (evicted leaf l o ++ (evictStash leaf l o).stash).Perm o.stash :=
  take_append_eraseKeys Block.index
    (fun index => decide (o.P leaf l = o.P (o.positionMap (toUnsigned index)) l)) o.bucketSize
    o.stash

theorem heldOutside_evictStep {away : Finset ℕ} {l : ℕ} (hlt : o.P leaf l < o.numBuckets)
    (hp : o.P leaf l ∉ away) (h : ∀ b ∈ o.stash, b.index ≠ -1) :
    heldOutside away (evictStep leaf l o) = heldOutside (insert (o.P leaf l) away) o := by
  have hmem : o.P leaf l ∈ Finset.range o.numBuckets \ away := by simp [hlt, hp]
  have hnew : ∑ p ∈ Finset.range o.numBuckets \ away,
      (real ((evictStep leaf l o).storage.buckets p) : Multiset Block) =
      (evicted leaf l o : Multiset Block) +
        ∑ p ∈ (Finset.range o.numBuckets \ away).erase (o.P leaf l),
          (real (o.storage.buckets p) : Multiset Block) := by
    rw [← Finset.add_sum_erase _ _ hmem]
    congr 1
    · simp [evictStep, Oram.storeBucket, real_fullBucket h]
    · refine Finset.sum_congr rfl fun p hpe => ?_
      have hne := Finset.ne_of_mem_erase hpe
      simp [evictStep, Oram.storeBucket, Oram.logCall, evictStash, Function.update_of_ne hne]
  have hstash : (evicted leaf l o : Multiset Block) + ((evictStash leaf l o).stash : Multiset Block)
      = (o.stash : Multiset Block) := by
    rw [Multiset.coe_add]
    exact Multiset.coe_eq_coe.mpr (evicted_perm leaf l o)
  change ((evictStash leaf l o).stash : Multiset Block) +
    ∑ p ∈ Finset.range o.numBuckets \ away, _ = _
  rw [hnew, heldOutside, Finset.sdiff_insert, ← hstash, add_left_comm, add_assoc]

structure OpenLevels (o : Oram) (leaf : ℕ) (levels : List ℕ) (away : Finset ℕ) : Prop where
  bound : ∀ i ∈ levels, o.P leaf i < o.numBuckets
  nodup : (levels.map (o.P leaf)).Nodup
  disjoint : ∀ i ∈ levels, o.P leaf i ∉ away

theorem OpenLevels.anti {away away' : Finset ℕ} (h : OpenLevels o leaf levels away')
    (hsub : away ⊆ away') : OpenLevels o leaf levels away :=
  ⟨h.bound, h.nodup, fun i hi hin => h.disjoint i hi (hsub hin)⟩

theorem OpenLevels.step {i : ℕ} {away : Finset ℕ} {u : Oram}
    (h : OpenLevels o leaf (i :: levels) away) (hf : Frame o u) :
    OpenLevels u leaf levels (insert (o.P leaf i) away) ∧ OpenLevels u leaf levels away := by
  have hnd := List.nodup_cons.mp h.nodup
  have hnext : OpenLevels u leaf levels (insert (o.P leaf i) away) := by
    refine ⟨?_, ?_, ?_⟩
    · intro j hj
      rw [hf.P, hf.numBuckets]
      exact h.bound j (List.mem_cons_of_mem _ hj)
    · rw [hf.P]
      exact hnd.2
    · intro j hj
      rw [hf.P, Finset.mem_insert, not_or]
      constructor
      · exact fun he => hnd.1 (he ▸ List.mem_map_of_mem hj)
      · exact h.disjoint j (List.mem_cons_of_mem _ hj)
  exact ⟨hnext, hnext.anti (Finset.subset_insert _ _)⟩

theorem heldOutside_readPath {away : Finset ℕ} (h : OpenLevels o leaf levels away) :
    heldOutside ((levels.map (o.P leaf)).toFinset ∪ away) (readPath leaf levels o) =
      heldOutside away o := by
  induction levels generalizing o away with
  | nil => simp [readPath]
  | cons i levels ih =>
    have hf := readStep_frame leaf i o
    have hrec := ih (h.step hf).1
    rw [hf.P] at hrec
    rw [List.map_cons, List.toFinset_cons, Finset.insert_union, ← Finset.union_insert]
    exact hrec.trans (heldOutside_readStep (h.bound i List.mem_cons_self)
      (h.disjoint i List.mem_cons_self))

theorem heldOutside_evictPath {away : Finset ℕ} (h : OpenLevels o leaf levels away)
    (hs : ∀ b ∈ o.stash, b.index ≠ -1) :
    heldOutside away (evictPath leaf levels o) =
      heldOutside ((levels.map (o.P leaf)).toFinset ∪ away) o := by
  induction levels generalizing o with
  | nil => simp [evictPath]
  | cons l levels ih =>
    have hf := evictStep_frame leaf l o
    have hnot : o.P leaf l ∉ (levels.map (o.P leaf)).toFinset ∪ away := by
      have hnd := (List.nodup_cons.mp h.nodup).1
      simpa [not_or] using And.intro (by simpa using hnd) (h.disjoint l List.mem_cons_self)
    have hrec := ih (h.step hf).2 (fun b hb => hs b (mem_of_mem_eraseKeys hb))
    rw [hf.P] at hrec
    rw [List.map_cons, List.toFinset_cons, Finset.insert_union,
      ← heldOutside_evictStep (h.bound l List.mem_cons_self) hnot hs]
    exact hrec

end OramEviction
