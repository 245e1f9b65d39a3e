import SseSeal.OramBlocks

/-! The public entry points as one kind of call, runs of calls, and the state the
constructor leaves. -/
namespace OramCalls

open Bytes Objects OramReadPathEviction StateExcept PathTree OramEviction OramAccess OramBlocks

theorem leaf_lt {r : RandomForOram} (h : 0 < r.bound) : r.leaf < r.bound := by
  have hb : (0 : ℤ) < r.bound := by omega
  have hup : Int.tmod (r.rng r.used) r.bound < r.bound := Int.tmod_lt_of_pos _ hb
  have hlow : -(r.bound : ℤ) < Int.tmod (r.rng r.used) r.bound := by
    have := Int.lt_tmod_of_pos (r.rng r.used) hb
    omega
  simp only [RandomForOram.leaf]
  split <;> omega

/-- A call of `access`, or of `access_direct` with a serialized node. -/
inductive Call where
  | access (op : Operation) (i : ℕ) (newData : Str)
  | direct (op : Operation) (node : Node)

namespace Call

def op : Call → Operation
  | access op _ _ => op
  | direct op _ => op

def index : Call → ℕ
  | access _ i _ => i
  | direct _ node => toUnsigned node.id

def data (codec : Codec Node) : Call → Str
  | access _ _ newData => newData
  | direct _ node => codec.serialize node

/-- The indices for which `int` and `unsigned int` agree. -/
def InRange : Call → Prop
  | access _ i _ => i < 2 ^ 31
  | direct _ node => 0 ≤ node.id ∧ node.id < 2 ^ 31

def run (codec : Codec Node) : Call → OramM Str
  | access op i newData => OramReadPathEviction.access op i newData
  | direct op node => accessDirect codec op (codec.serialize node)

theorem index_lt {c : Call} (h : c.InRange) : c.index < 2 ^ 31 := by
  cases c with
  | access op i newData => exact h
  | direct op node =>
    obtain ⟨hlow, hhigh⟩ := h
    simp only [index, toUnsigned]
    omega

def newLeaf (o : Oram) : Call → ℤ
  | access _ _ _ => o.randGen.leaf
  | direct op node => if op = .read ∨ node.id = 0 then o.randGen.leaf else node.posTag

/-- The state in which a call enters `access_handler`. -/
def prepare (o : Oram) : Call → Oram
  | access _ i _ =>
    { o with
      randGen := o.randGen.advance
      positionMap := Function.update o.positionMap i o.randGen.leaf }
  | direct op node =>
    if op = .read ∨ node.id = 0 then { o with randGen := o.randGen.advance } else o

theorem run_eq (codec : Codec Node) (c : Call) (o : Oram) :
    (c.run codec).run o =
      (accessHandler c.op c.index (o.positionMap c.index) (c.newLeaf o) (c.data codec)).run
        (c.prepare o) := by
  cases c with
  | access op i newData => rfl
  | direct op node =>
    simp only [run, accessDirect, codec.roundTrip]
    refine (run_bind_ok (run_get o)).trans ?_
    by_cases h : op = .read ∨ node.id = 0
    · refine (run_bind_ok (a := (o.randGen.leaf : ℤ))
        (t := { o with randGen := o.randGen.advance }) ?_).trans ?_
      · rw [directLeaf, if_pos h]
        rfl
      · simp only [Call.op, index, newLeaf, data, prepare, if_pos h]
    · refine (run_bind_ok (a := node.posTag) (t := o) ?_).trans ?_
      · rw [directLeaf, if_neg h]
        rfl
      · simp only [Call.op, index, newLeaf, data, prepare, if_neg h]

section Prepare

variable {c : Call} {o : Oram}

@[simp] theorem prepare_storage : (c.prepare o).storage = o.storage := by
  cases c with
  | access => rfl
  | direct op node => simp only [prepare]; split <;> rfl

@[simp] theorem prepare_stash : (c.prepare o).stash = o.stash := by
  cases c with
  | access => rfl
  | direct op node => simp only [prepare]; split <;> rfl

@[simp] theorem prepare_numLevels : (c.prepare o).numLevels = o.numLevels := by
  cases c with
  | access => rfl
  | direct op node => simp only [prepare]; split <;> rfl

@[simp] theorem prepare_bucketSize : (c.prepare o).bucketSize = o.bucketSize := by
  cases c with
  | access => rfl
  | direct op node => simp only [prepare]; split <;> rfl

@[simp] theorem prepare_numBuckets : (c.prepare o).numBuckets = o.numBuckets := by
  cases c with
  | access => rfl
  | direct op node => simp only [prepare]; split <;> rfl

theorem prepare_positionMap_of_ne {j : ℕ} (h : j ≠ c.index) :
    (c.prepare o).positionMap j = o.positionMap j := by
  cases c with
  | access op i newData => exact Function.update_of_ne h _ _
  | direct op node => simp only [prepare]; split <;> rfl

@[simp] theorem held_prepare : held (c.prepare o) = held o := by
  simp [held, heldOutside]

theorem prepare_wellFormed (hw : WellFormed o) : WellFormed (c.prepare o) := by
  have hpos : 0 < o.randGen.bound := by
    rw [hw.bound_eq, hw.leaves_eq]
    exact Nat.two_pow_pos _
  have hleaf : o.randGen.leaf < o.numLeaves := hw.bound_eq ▸ leaf_lt hpos
  obtain ⟨h₁, h₂, h₃, h₄, h₅, h₆, h₇, h₈⟩ := hw
  cases c with
  | access op i newData =>
    refine ⟨h₁, h₂, h₃, h₄, h₅, h₆, ?_, h₈⟩
    intro j
    by_cases hj : j = i
    · subst j
      simpa [prepare] using hleaf
    · simpa [prepare, Function.update_of_ne hj] using h₇ j
  | direct op node =>
    simp only [prepare]
    split
    · exact ⟨h₁, h₂, h₃, h₄, h₅, h₆, h₇, h₈⟩
    · exact ⟨h₁, h₂, h₃, h₄, h₅, h₆, h₇, h₈⟩

theorem prepare_numLeaves : (c.prepare o).numLeaves = o.numLeaves := by
  cases c with
  | access => rfl
  | direct op node => simp only [prepare]; split <;> rfl

theorem prepare_reliable (hr : Reliable o) : Reliable (c.prepare o) := by
  intro k
  rw [prepare_storage]
  exact hr k

end Prepare

def next (codec : Codec Node) (o : Oram) (c : Call) : Oram :=
  handled c.op c.index (o.positionMap c.index) (c.newLeaf o) (c.data codec) (c.prepare o)

def answer (o : Oram) (c : Call) : Str :=
  stashAnswer c.op (toInt c.index) (opened (o.positionMap c.index) (c.prepare o)).stash

theorem run_ok {o : Oram} (hr : Reliable o) (hw : WellFormed o) (codec : Codec Node) (c : Call) :
    (c.run codec).run o = .ok (c.answer o) (c.next codec o) := by
  rw [run_eq]
  refine accessHandler_run (prepare_reliable hr) (prepare_wellFormed hw) ?_ _ _ _ _
  rw [prepare_numLeaves]
  exact hw.positions_lt _

theorem run_ok_next {o u : Oram} {codec : Codec Node} {c : Call} {answer : Str}
    (hw : WellFormed o) (h : (c.run codec).run o = .ok answer u) :
    answer = c.answer o ∧ u = c.next codec o := by
  rw [run_eq] at h
  exact accessHandler_ok (prepare_wellFormed hw).max_eq h

end Call

def leafAt (r : RandomForOram) (k : ℕ) : ℕ := { r with used := k }.leaf

def drawStep (i : ℕ) (o : Oram) : Oram :=
  { o with
    randGen := o.randGen.advance
    positionMap := Function.update o.positionMap i o.randGen.leaf }

def initStep (i : ℕ) (o : Oram) : Oram :=
  (o.logCall (.write i)).storeBucket i (padBucket o.maxSize [] o.bucketSize)

theorem drawSteps (n : ℕ) (o : Oram) :
    (List.range n).foldl (fun o i => drawStep i o) o =
      { o with
        randGen := { o.randGen with used := o.randGen.used + n }
        positionMap := fun j =>
          if j < n then leafAt o.randGen (o.randGen.used + j) else o.positionMap j } := by
  induction n with
  | zero => simp
  | succ n ih =>
    rw [List.range_succ, List.foldl_append, ih]
    simp only [List.foldl_cons, List.foldl_nil, drawStep, RandomForOram.advance, Nat.add_assoc]
    congr 1
    funext j
    by_cases hj : j = n
    · subst j
      simp [leafAt]
    · have hlt : j < n + 1 ↔ j < n := by omega
      simp [Function.update_of_ne hj, hlt]

theorem initSteps (n : ℕ) (o : Oram) :
    (List.range n).foldl (fun o i => initStep i o) o =
      { o with
        storage := { o.storage with
          buckets := fun p =>
            if p < n then padBucket o.maxSize [] o.bucketSize else o.storage.buckets p
          calls := o.storage.calls ++ (List.range n).map .write } } := by
  induction n with
  | zero => simp
  | succ n ih =>
    rw [List.range_succ, List.foldl_append, ih]
    simp only [List.foldl_cons, List.foldl_nil, initStep, Oram.logCall, Oram.storeBucket,
      List.map_append, List.map_cons, List.map_nil, List.append_assoc]
    congr 2
    funext p
    by_cases hp : p = n
    · subst p
      simp
    · have hlt : p < n + 1 ↔ p < n := by omega
      simp [Function.update_of_ne hp, hlt]

theorem drawPosition_ok {i : ℕ} {o u : Oram} (h : (drawPosition i).run o = .ok ⟨⟩ u) :
    u = drawStep i o := by
  cases h
  rfl

theorem initBucket_ok {i : ℕ} {o u : Oram} (h : (initBucket i).run o = .ok ⟨⟩ u) :
    u = initStep i o := by
  obtain ⟨_, _, hg, h⟩ := bind_ok h
  cases hg
  simp only [EStateM.run, writeBucket] at h
  split at h
  · cases h
  split at h
  · cases h
  · cases h
    rfl

structure Fresh (bucketSize numBlocks : ℕ) (storage : Storage) (randGen : RandomForOram)
    (o : Oram) : Prop where
  wellFormed : WellFormed o
  nothing_held : held o = 0
  numLevels : o.numLevels = Nat.clog 2 numBlocks + 1
  fails : o.storage.fails = storage.fails
  calls : o.storage.calls = storage.calls ++ (List.range o.numBuckets).map .write
  positionMap : o.positionMap = fun j => if j < numBlocks then
    leafAt { randGen with bound := o.numLeaves } (randGen.used + j) else 0
  randGen : o.randGen =
    { randGen with bound := o.numLeaves, used := randGen.used + numBlocks }

/-- The instance the constructor leaves when no storage call throws. -/
def constructed (bucketSize numBlocks : ℕ) (storage : Storage) (randGen : RandomForOram) : Oram :=
  { blank bucketSize numBlocks storage randGen with
    randGen :=
      { randGen with bound := 2 ^ Nat.clog 2 numBlocks, used := randGen.used + numBlocks }
    positionMap := fun j => if j < numBlocks then
      leafAt { randGen with bound := 2 ^ Nat.clog 2 numBlocks } (randGen.used + j) else 0
    storage := { storage with
      capacity := 2 ^ (Nat.clog 2 numBlocks + 1) - 1
      buckets := fun p => if p < 2 ^ (Nat.clog 2 numBlocks + 1) - 1
        then padBucket bucketSize [] bucketSize else []
      calls := storage.calls ++
        (List.range (2 ^ (Nat.clog 2 numBlocks + 1) - 1)).map .write } }

theorem initBucket_run {i : ℕ} {o : Oram} (hi : i < o.storage.capacity)
    (hf : o.failsNow = false) : (initBucket i).run o = .ok ⟨⟩ (initStep i o) := by
  refine (run_bind_ok (run_get o)).trans ?_
  change writeBucket i (padBucket o.maxSize [] o.bucketSize) o = _
  rw [writeBucket, if_neg hi.not_ge, hf]
  rfl

theorem construct_returns {bucketSize numBlocks : ℕ} {storage : Storage} (hpos : numBlocks ≠ 0)
    (hlevels : Nat.clog 2 numBlocks + 1 ≤ 31)
    (hspace : numBlocks ≤ (2 ^ (Nat.clog 2 numBlocks + 1) - 1) * bucketSize % 2 ^ 32)
    (hfails : ∀ k, storage.fails k = false) (r : RandomForOram) :
    construct.run (blank bucketSize numBlocks storage r) =
      .ok ⟨⟩ (constructed bucketSize numBlocks storage r) := by
  let Open (o : Oram) := o.storage.capacity = (blank bucketSize numBlocks storage r).numBuckets ∧
    ∀ k, o.storage.fails k = false
  have hdraw := forM_run drawPosition drawStep (l := List.range numBlocks) (G := Open)
    (fun i _ o ho => ⟨rfl, ho⟩) (s := (blank bucketSize numBlocks storage r).sized)
    ⟨rfl, hfails⟩
  have hinit := forM_run initBucket initStep (G := Open)
    (l := List.range (blank bucketSize numBlocks storage r).numBuckets)
    (fun i hi o ho => ⟨initBucket_run (ho.1.symm ▸ List.mem_range.mp hi) (ho.2 _), ho⟩) hdraw.2
  refine (run_bind_ok (run_get _)).trans ?_
  rw [if_neg (by simp only [blank]; omega), if_neg (by simp only [blank]; omega)]
  refine (run_bind_ok (run_set _ _)).trans ((run_bind_ok hdraw.1).trans (hinit.1.trans ?_))
  rw [drawSteps, initSteps]
  rfl

theorem construct_ok {bucketSize numBlocks : ℕ} {storage : Storage} {randGen : RandomForOram}
    {o : Oram} (h : construct.run (blank bucketSize numBlocks storage randGen) = .ok ⟨⟩ o) :
    o = constructed bucketSize numBlocks storage randGen := by
  obtain ⟨_, _, hg, h⟩ := bind_ok h
  cases hg
  split at h
  · cases h
  split at h
  · cases h
  obtain ⟨_, _, hs, h⟩ := bind_ok h
  cases hs
  obtain ⟨_, d, hd, h⟩ := bind_ok h
  have hd' := forM_ok_foldl (G := fun _ => True) drawPosition drawStep
    (fun _ _ _ _ _ h => ⟨drawPosition_ok h, trivial⟩) trivial hd
  have hi := forM_ok_foldl (G := fun _ => True) initBucket initStep
    (fun _ _ _ _ _ h => ⟨initBucket_ok h, trivial⟩) trivial h
  rw [drawSteps] at hd'
  rw [initSteps] at hi
  subst hd'
  exact hi

theorem construct_fresh {bucketSize numBlocks : ℕ} {storage : Storage} {randGen : RandomForOram}
    {o : Oram} (h : construct.run (blank bucketSize numBlocks storage randGen) = .ok ⟨⟩ o) :
    Fresh bucketSize numBlocks storage randGen o := by
  obtain rfl := construct_ok h
  have hpow : 0 < 2 ^ Nat.clog 2 numBlocks := Nat.two_pow_pos _
  have hempty : ∀ p, real (if p < (2 ^ (Nat.clog 2 numBlocks + 1) - 1)
      then padBucket bucketSize [] bucketSize else []) = [] := by
    intro p
    rw [padBucket_eq _ _ _ (by simp)]
    split <;> simp [real, Block.dummy]
  refine ⟨⟨Nat.succ_pos _, rfl, rfl, rfl, rfl, rfl, ?_, ?_⟩, ?_, rfl, rfl, rfl, rfl, rfl⟩
  · intro j
    change (if j < numBlocks then _ else 0) < 2 ^ Nat.clog 2 numBlocks
    split
    · exact leaf_lt (r := { randGen with
        bound := 2 ^ Nat.clog 2 numBlocks, used := randGen.used + j }) hpow
    · exact hpow
  · intro b hb
    cases hb
  · have hsum : ∀ s : Finset ℕ, ∑ p ∈ s, ((real (if p < (2 ^ (Nat.clog 2 numBlocks + 1) - 1)
        then padBucket bucketSize [] bucketSize else []) : List Block) : Multiset Block) = 0 :=
      fun s => Finset.sum_eq_zero fun p _ => congrArg _ (hempty p)
    exact (congrArg (0 + ·) (hsum _)).trans (add_zero _)

end OramCalls
