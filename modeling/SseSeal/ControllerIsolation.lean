import SseSeal.OramInvariant
import SseSeal.SealService

/-! Several `OramAccessController`s in one process. They share the static members of `Bucket`
and one random generator, whose bound is the number of leaves of the controller made last. The
dictionaries with one map key also share the buckets on the server, whatever their numbers are. -/
namespace ControllerIsolation

open Bytes Objects OramReadPathEviction StateExcept OramEviction OramAccess OramBlocks OramCalls
open OramMemory OramInvariant BucketArchive
open SealService (Address Target)

inductive ProcessError where
  | maxSizeSet
  | noController
  | failedPrecondition
  | storage (e : StorageError)
  deriving DecidableEq, Repr

/-- The buckets that the server keeps at an address. -/
structure Place where
  size : ℕ
  buckets : ℕ → Bucket

/-- The controllers of a process, what they share, and the places of their buckets on the
server. -/
structure Process where
  statics : Statics
  randGen : RandomForOram
  orams : Target → Option Oram
  places : Address → Option Place

def Process.fresh (rng : ℕ → ℤ) : Process :=
  ⟨.initial, ⟨0, rng, 0⟩, fun _ => none, fun _ => none⟩

abbrev ProcessM := EStateM ProcessError Process

def withGen (r : RandomForOram) (o : Oram) : Oram := { o with randGen := r }

def Process.place (p : Process) (a : Target) : Place :=
  (p.places a.address).getD ⟨0, fun _ => []⟩

/-- A controller with what it finds in its process and on the server. A position that the server
does not have is an error, like one that the storage of the controller does not have. -/
def Process.attach (p : Process) (a : Target) (o : Oram) : Oram :=
  { withGen p.randGen o with storage := { o.storage with
      capacity := min o.storage.capacity (p.place a).size
      buckets := (p.place a).buckets } }

def Process.withOram (p : Process) (a : Target) (size : ℕ) (o : Oram) : Process :=
  { p with
    randGen := o.randGen
    orams := Function.update p.orams a (some o)
    places := Function.update p.places a.address (some ⟨size, o.storage.buckets⟩) }

/-- The capacity that `setCapacity` gave the storage. -/
def withCapacity (capacity : ℕ) (o : Oram) : Oram :=
  { o with storage := { o.storage with capacity := capacity } }

/-- What `set_capacity` of the server answers: a sub-ORAM has the next number under its map
key, or an earlier one. -/
def Process.accepts (p : Process) : Address → Bool
  | .odict _ => true
  | .oram mapKey oramId => (List.range oramId).all fun j => (p.places (.oram mapKey j)).isSome

def makeController (a : Target) (bucketSize blockNumber : ℕ) : ProcessM PUnit := fun p =>
  if p.statics.isInit ∧ (bucketSize : ℤ) ≠ p.statics.maxSize then .error .maxSizeSet p
  else
    match construct.run (blank bucketSize blockNumber .new p.randGen) with
    | .ok _ o =>
      if p.accepts a.address then
        .ok ⟨⟩ { p.withOram a o.storage.capacity o with statics := ⟨true, bucketSize⟩ }
      else .error .failedPrecondition { p with
        statics := ⟨true, bucketSize⟩
        randGen := { p.randGen with bound := o.numLeaves } }
    | .error e o => .error (.storage e)
        { p with statics := ⟨true, bucketSize⟩, randGen := o.randGen }

/-- `oblivious_access`, of an operation that `deduct_operation` admits. -/
def obliviousAccess (a : Target) (op : Operation) (address : ℕ) (data : Str) : ProcessM Str :=
  fun p =>
    match p.orams a with
    | none => .error .noController p
    | some o =>
      let after := fun o' => p.withOram a (p.place a).size (withCapacity o.storage.capacity o')
      match (access op address data).run (p.attach a o) with
      | .ok answer o' => .ok answer (after o')
      | .error e o' => .error (.storage e) (after o')

inductive Event where
  | construct (a : Target) (bucketSize blockNumber : ℕ)
  | access (a : Target) (op : Operation) (address : ℕ) (data : Str)

def Event.run : Event → ProcessM Str
  | construct a bucketSize blockNumber => do
    makeController a bucketSize blockNumber
    return []
  | access a op address data => obliviousAccess a op address data

def runEvents : List Event → ProcessM (List Str)
  | [] => return []
  | e :: events => do
    let answer ← e.run
    let answers ← runEvents events
    return answer :: answers

def Event.written (a : Target) (i : ℕ) : Event → Option Str
  | access b .write j data => if b = a ∧ j = i then some data else none
  | _ => none

def lastData (events : List Event) (a : Target) (i : ℕ) : Option Str :=
  (events.filterMap (Event.written a i)).getLast?

/-- The leaves that a controller has sampled for its addresses are its own. -/
def LeavesBelow (o : Oram) : Prop := ∀ i, o.positionMap i < o.numLeaves

def WithinCapacity (o : Oram) : Prop :=
  ∀ call ∈ o.storage.calls, StorageCall.position call < o.numBuckets

/-- After every part of a run from its beginning: all calls returned, the leaves and the requests
are within the bounds of each controller, and every read was answered with the last data that its
own controller was given. -/
def Isolated (rng : ℕ → ℤ) (events : List Event) : Prop :=
  ∀ pre, pre <+: events → ∃ answers p, (runEvents pre).run (.fresh rng) = .ok answers p ∧
    (∀ a o, p.orams a = some o → LeavesBelow o ∧ WithinCapacity o) ∧
    ∀ k a i data, pre[k]? = some (.access a .read i data) →
      answers[k]? = some ((lastData (pre.take k) a i).getD [])

/-- A number of blocks for which the constructor does not throw. -/
structure Constructible (bucketSize blockNumber : ℕ) : Prop where
  pos : blockNumber ≠ 0
  levels : Nat.clog 2 blockNumber + 1 ≤ 31
  space : blockNumber ≤ (2 ^ (Nat.clog 2 blockNumber + 1) - 1) * bucketSize % 2 ^ 32

def Event.key : Event → Option (Str × ℤ)
  | construct a _ _ => some (a.mapKey, a.oramId)
  | access _ _ _ _ => none

def Event.blockNumber : Event → Option ℕ
  | construct _ _ n => some n
  | access _ _ _ _ => none

/-- Constructions with one bucket size and different pairs of a map key and a number, and accesses
to controllers that were made before. -/
structure Schedule (bucketSize : ℕ) (events : List Event) : Prop where
  distinct : (events.filterMap Event.key).Nodup
  numbered : ∀ pre a size n mapKey oramId, pre ++ [.construct a size n] <+: events →
    a.address = .oram mapKey oramId →
      ∀ j < oramId, ∃ b size n, b.address = .oram mapKey j ∧ .construct b size n ∈ pre
  constructible : ∀ a size n, .construct a size n ∈ events →
    size = bucketSize ∧ Constructible bucketSize n
  known : ∀ pre a op i data, pre ++ [.access a op i data] <+: events →
    ∃ n, .construct a bucketSize n ∈ pre
  range : ∀ a op i data, .access a op i data ∈ events → i < 2 ^ 31

def leavesFor (blockNumber : ℕ) : ℕ := 2 ^ Nat.clog 2 blockNumber

/-- Whenever a controller is accessed, the one made last has at most as many leaves. -/
def BoundKept (events : List Event) : Prop :=
  ∀ pre a op i data, pre ++ [.access a op i data] <+: events → ∀ size n last,
    .construct a size n ∈ pre → (pre.filterMap Event.blockNumber).getLast? = some last →
    leavesFor last ≤ leavesFor n

def Event.madeAt (x : Address) : Event → Option Target
  | construct a _ _ => if a.address = x then some a else none
  | access _ _ _ _ => none

def lastAt (events : List Event) (x : Address) : Option Target :=
  (events.filterMap (Event.madeAt x)).getLast?

/-- Whenever a controller is accessed, it is the one made last at its place on the server. -/
def PlacesKept (events : List Event) : Prop :=
  ∀ pre a op i data, pre ++ [.access a op i data] <+: events → lastAt pre a.address = some a

variable {r r' : RandomForOram} {o : Oram} {m : ℤ → Option Str} {op : Operation} {i : ℕ}
  {data : Str}

theorem readBucket_commutes (position : ℕ) : Commutes (withGen r) (readBucket
    position) := by
  intro o
  change readBucket position (withGen r o) =
    mapState (withGen r) (readBucket position o)
  have hcapacity : (withGen r o).storage.capacity = o.storage.capacity := rfl
  have hfails : (withGen r o).failsNow = o.failsNow := rfl
  rw [readBucket, readBucket, hcapacity, hfails]
  split
  · rfl
  · split <;> rfl

theorem writeBucket_commutes (position : ℕ) (bucket : Bucket) :
    Commutes (withGen r) (writeBucket position bucket) := by
  intro o
  change writeBucket position bucket (withGen r o) =
    mapState (withGen r) (writeBucket position bucket o)
  have hcapacity : (withGen r o).storage.capacity = o.storage.capacity := rfl
  have hfails : (withGen r o).failsNow = o.failsNow := rfl
  rw [writeBucket, writeBucket, hcapacity, hfails]
  split
  · rfl
  · split <;> rfl

theorem readLevel_commutes (leaf l : ℕ) : Commutes (withGen r) (readLevel leaf l) := by
  apply commutes_get
  · intro o
    rfl
  · intro o
    apply (readBucket_commutes _).bind
    intro blocks
    exact commutes_modify fun _ => rfl

theorem evictLevel_commutes (leaf l : ℕ) : Commutes (withGen r) (evictLevel leaf l) := by
  intro o
  have hrun : ∀ o : Oram, ∃ position bucket stash, (evictLevel leaf l).run o =
      (writeBucket position bucket).run { o with stash := stash } ∧
      (evictLevel leaf l).run (withGen r o) = (writeBucket position
        bucket).run (withGen r { o with stash := stash }) := fun _ => ⟨_, _, _, rfl, rfl⟩
  obtain ⟨position, bucket, stash, heq, heq'⟩ := hrun o
  rw [heq, heq', writeBucket_commutes]

theorem accessStash_commutes (op : Operation) (i : ℕ) (newLeaf : ℤ) (newData : Str) :
    Commutes (withGen r) (accessStash op i newLeaf newData) := by
  intro o
  rw [accessStash_run, accessStash_run]
  rfl

theorem accessHandler_commutes (op : Operation) (i leaf : ℕ) (newLeaf : ℤ) (newData : Str) :
    Commutes (withGen r) (accessHandler op i leaf newLeaf newData) := by
  apply commutes_get
  · intro o
    rfl
  · intro o
    apply (commutes_forM (readLevel_commutes leaf) _).bind
    intro _
    apply (accessStash_commutes op i newLeaf newData).bind
    intro answer
    apply (commutes_forM (evictLevel_commutes leaf) _).bind
    intro _
    exact commutes_pure answer

theorem access_withGen (h : r'.leaf = r.leaf) :
    (access op i data).run (withGen r o) =
      mapState (withGen r.advance) ((access op i data).run (withGen r' o)) := by
  have hrun : ∀ r : RandomForOram, (access op i data).run (withGen r o) =
      mapState (withGen r.advance) ((accessHandler op i (o.positionMap i) r.leaf data).run
        { o with positionMap := Function.update o.positionMap i r.leaf }) := by
    intro r
    rw [← accessHandler_commutes]
    rfl
  rw [hrun, hrun, h]
  cases (accessHandler op i (o.positionMap i) r.leaf data).run
    { o with positionMap := Function.update o.positionMap i r.leaf } <;> rfl

structure Alone (o : Oram) (m : ℤ → Option Str) : Prop where
  holds : Holds (withGen ⟨o.numLeaves, fun _ => 0, 0⟩ o) m
  reliable : Reliable o
  within : WithinCapacity o

theorem holds_withGen (h : Holds (withGen r o) m) (hr : r'.bound = o.numLeaves) :
    Holds (withGen r' o) m := by
  obtain ⟨⟨h₁, h₂, h₃, h₄, _, h₆, h₇, h₈⟩, hblocks, hplaced⟩ := h
  exact ⟨⟨h₁, h₂, h₃, h₄, hr, h₆, h₇, h₈⟩, hblocks, hplaced⟩

theorem Alone.leavesBelow (h : Alone o m) : LeavesBelow o := h.holds.wellFormed.positions_lt

theorem withinStorage_capacity {u : Oram} (h : WithinCapacity o) (hu : WithinStorage o u)
    (hn : u.numBuckets = o.numBuckets) : WithinCapacity u := by
  obtain ⟨made, hmade, hin⟩ := hu
  intro call hcall
  rw [hmade] at hcall
  rw [hn]
  rcases List.mem_append.mp hcall with hcall | hcall
  · exact h call hcall
  · exact hin call hcall

theorem leaf_const {k n : ℕ} (h : k < n) : RandomForOram.leaf ⟨n, fun _ => k, 0⟩ = k := by
  have hmod : Int.tmod (k : ℤ) n = k := Int.tmod_eq_of_lt (by omega) (by omega)
  have hnot : ¬ (k : ℤ) < 0 := by omega
  rw [RandomForOram.leaf, hmod, if_neg hnot, Int.toNat_natCast]

/-- With a bound that is no greater than its number of leaves, a controller answers an access
as it would alone. -/
theorem Alone.access (h : Alone o m) (hpos : 0 < r.bound) (hbound : r.bound ≤ o.numLeaves)
    (hi : i < 2 ^ 31) (op : Operation) (data : Str) :
    ∃ o', (access op i data).run (withGen r o) =
        .ok (reply m (.access op i data)) o' ∧
      Alone o' (store ObjectArchive.nodeCodec m (.access op i data)) ∧
      o'.storage.capacity = o.storage.capacity := by
  have hsame := leaf_const ((leaf_lt hpos).trans_le hbound)
  generalize hr : RandomForOram.mk o.numLeaves (fun _ => (r.leaf : ℤ)) 0 = own at hsame
  have hown : own.bound = o.numLeaves := by rw [← hr]
  have hin : (Call.access op i data).InRange := hi
  have hholds : Holds (withGen own o) m := holds_withGen h.holds hown
  obtain ⟨hnext, hanswer⟩ := holds_next hholds hin ObjectArchive.nodeCodec
  have hrun := Call.run_ok (o := withGen own o) h.reliable hholds.wellFormed
    ObjectArchive.nodeCodec (.access op i data)
  have hwithin := (call_within hholds.wellFormed ObjectArchive.nodeCodec
    (.access op i data)).post_of_ok hrun
  have hframe : Frame (Call.prepare (withGen own o) (.access op i data))
      (Call.next ObjectArchive.nodeCodec (withGen own o) (.access op i data)) :=
    handled_frame _ _ _ _ _ _
  have hreliable := next_reliable (o := withGen own o) (c := .access op i data) h.reliable
    ObjectArchive.nodeCodec
  rw [hanswer] at hrun
  generalize Call.next ObjectArchive.nodeCodec (withGen own o) (.access op i data) = u at *
  refine ⟨withGen r.advance u, ?_, ⟨?_, hreliable, ?_⟩, ?_⟩
  · rw [access_withGen hsame]
    exact congrArg (mapState (withGen r.advance)) hrun
  · exact holds_withGen hnext rfl
  · exact withinStorage_capacity (u := withGen r.advance u) h.within hwithin.2 hframe.numBuckets
  · have hcapacity : u.storage.capacity = u.numBuckets := hnext.wellFormed.capacity_eq
    have hbefore : o.storage.capacity = o.numBuckets := h.holds.wellFormed.capacity_eq
    exact hcapacity.trans (hframe.numBuckets.trans hbefore.symm)

theorem access_ok {o' : Oram} {answer : Str} (hmax : o.maxSize = o.bucketSize)
    (h : (access op i data).run o = .ok answer o') :
    o'.positionMap i = o.randGen.leaf ∧ o'.numLeaves = o.numLeaves ∧ o'.maxSize = o.maxSize ∧
      o'.bucketSize = o.bucketSize ∧ o'.randGen = o.randGen.advance := by
  have hrun := Call.run_eq ObjectArchive.nodeCodec (.access op i data) o
  have hhandler := hrun.symm.trans h
  obtain ⟨_, rfl⟩ := accessHandler_ok (o := Call.prepare o (.access op i data)) hmax hhandler
  have hframe := handled_frame op i (o.positionMap i) o.randGen.leaf data
    (Call.prepare o (.access op i data))
  refine ⟨?_, hframe.numLeaves, hframe.maxSize, hframe.bucketSize, hframe.randGen⟩
  exact (congrFun hframe.positionMap i).trans (Function.update_self ..)

theorem construct_run {bucketSize blockNumber : ℕ} (h : Constructible bucketSize blockNumber)
    (r : RandomForOram) : construct.run (blank bucketSize blockNumber .new r) = .ok ⟨⟩
      ((List.range (2 ^ (Nat.clog 2 blockNumber + 1) - 1)).foldl (fun o i => initStep i o)
        ((List.range blockNumber).foldl (fun o i => drawStep i o)
          (blank bucketSize blockNumber .new r).sized)) := by
  rw [drawSteps, initSteps]
  exact construct_returns h.pos h.levels h.space (fun _ => rfl) r

theorem alone_construct {bucketSize blockNumber : ℕ}
    (h : construct.run (blank bucketSize blockNumber .new r) = .ok ⟨⟩ o) :
    Alone o (fun _ => none) ∧ o.numLeaves = leavesFor blockNumber ∧ o.maxSize = o.bucketSize ∧
      o.randGen.bound = leavesFor blockNumber ∧ o.randGen.rng = r.rng := by
  have hfresh := construct_fresh h
  have hleaves : o.numLeaves = leavesFor blockNumber := by
    rw [hfresh.wellFormed.leaves_eq, hfresh.numLevels]
    rfl
  refine ⟨⟨?_, reliable_construct (fun _ => rfl) h, ?_⟩, hleaves, hfresh.wellFormed.max_eq, ?_, ?_⟩
  · have hholds := holds_construct h
    exact holds_withGen (r := o.randGen) hholds rfl
  · intro call hcall
    rw [hfresh.calls] at hcall
    rcases List.mem_append.mp hcall with hcall | hcall
    · cases hcall
    · obtain ⟨position, hposition, rfl⟩ := List.mem_map.mp hcall
      exact List.mem_range.mp hposition
  · rw [hfresh.randGen]
    exact hleaves
  · rw [hfresh.randGen]

variable {rng : ℕ → ℤ} {bucketSize : ℕ} {pre events : List Event} {e : Event} {p p' : Process}
  {a : Target} {answer : Str} {answers : List Str}

theorem runEvents_concat (pre : List Event) (e : Event) : runEvents (pre ++ [e]) = do
    let answers ← runEvents pre
    let answer ← e.run
    return answers ++ [answer] := by
  induction pre with
  | nil => simp [runEvents]
  | cons d pre ih => simp [runEvents, ih]

theorem runEvents_concat_ok (h : (runEvents (pre ++ [e])).run p = .ok answers p') :
    ∃ before q answer, (runEvents pre).run p = .ok before q ∧ e.run.run q = .ok answer p' ∧
      answers = before ++ [answer] := by
  rw [runEvents_concat] at h
  obtain ⟨before, q, hpre, h⟩ := bind_ok h
  obtain ⟨answer, q', he, h⟩ := bind_ok h
  cases h
  exact ⟨before, q, answer, hpre, he, rfl⟩

structure Tracks (rng : ℕ → ℤ) (bucketSize : ℕ) (pre : List Event) (p : Process) : Prop where
  statics : p.statics.isInit → p.statics.maxSize = bucketSize
  rng : p.randGen.rng = rng
  bound : ∀ last, (pre.filterMap Event.blockNumber).getLast? = some last →
    p.randGen.bound = leavesFor last
  made : ∀ a size n, .construct a size n ∈ pre →
    ∃ o, p.orams a = some o ∧ o.numLeaves = leavesFor n ∧ o.maxSize = o.bucketSize
  placed : ∀ a size n, .construct a size n ∈ pre → (p.places a.address).isSome

theorem tracks_fresh : Tracks rng bucketSize [] (.fresh rng) := by
  refine ⟨?_, rfl, ?_, ?_, ?_⟩
  · intro h
    cases h
  · intro last h
    cases h
  · intro a size n h
    cases h
  · intro a size n h
    cases h

theorem makeController_ok {blockNumber : ℕ}
    (h : (makeController a bucketSize blockNumber).run p = .ok ⟨⟩ p') :
    ∃ o, construct.run (blank bucketSize blockNumber .new p.randGen) = .ok ⟨⟩ o ∧
      p' = { p.withOram a o.storage.capacity o with statics := ⟨true, bucketSize⟩ } := by
  change makeController a bucketSize blockNumber p = _ at h
  rw [makeController] at h
  split at h
  · cases h
  split at h
  · split at h
    · cases h
      exact ⟨_, by assumption, rfl⟩
    · cases h
  · cases h

theorem obliviousAccess_ok (h : (obliviousAccess a op i data).run p = .ok answer p') :
    ∃ o o', p.orams a = some o ∧ (access op i data).run (p.attach a o) = .ok answer o' ∧
      p' = p.withOram a (p.place a).size (withCapacity o.storage.capacity o') := by
  change obliviousAccess a op i data p = _ at h
  rw [obliviousAccess] at h
  split at h
  · cases h
  · split at h
    · cases h
      exact ⟨_, _, by assumption, by assumption, rfl⟩
    · cases h

theorem placed_withOram {size : ℕ} {o : Oram} {b : Target} (h : (p.places b.address).isSome) :
    ((p.withOram a size o).places b.address).isSome := by
  change (Function.update p.places a.address (some ⟨size, o.storage.buckets⟩) b.address).isSome
  by_cases hplace : b.address = a.address
  · rw [hplace, Function.update_self]
    rfl
  · rwa [Function.update_of_ne hplace]

theorem update_cases {orams : Target → Option Oram} {o u : Oram} {b : Target}
    (h : Function.update orams a (some o) b = some u) :
    b = a ∧ o = u ∨ b ≠ a ∧ orams b = some u := by
  by_cases hb : b = a
  · rw [hb, Function.update_self, Option.some.injEq] at h
    exact Or.inl ⟨hb, h⟩
  · rw [Function.update_of_ne hb] at h
    exact Or.inr ⟨hb, h⟩

theorem Tracks.construct {n : ℕ} (h : Tracks rng bucketSize pre p)
    (hfresh : ∀ size m, .construct a size m ∉ pre)
    (hrun : (makeController a bucketSize n).run p = .ok ⟨⟩ p') :
    Tracks rng bucketSize (pre ++ [.construct a bucketSize n]) p' := by
  obtain ⟨o, ho, rfl⟩ := makeController_ok hrun
  obtain ⟨_, hleaves, hmax, hbound, hrng⟩ := alone_construct ho
  refine ⟨fun _ => rfl, hrng.trans h.rng, ?_, ?_, ?_⟩
  · intro last hlast
    rw [List.filterMap_append] at hlast
    have hsame : n = last := by simpa [Event.blockNumber] using hlast
    exact hsame ▸ hbound
  · intro b size m hb
    rcases List.mem_append.mp hb with hold | hnew
    · have hne : b ≠ a := by
        intro heq
        exact hfresh size m (heq ▸ hold)
      obtain ⟨o', ho', hrest⟩ := h.made b size m hold
      exact ⟨o', (Function.update_of_ne hne _ _).trans ho', hrest⟩
    · cases List.mem_singleton.mp hnew
      exact ⟨o, Function.update_self _ _ _, hleaves, hmax⟩
  · intro b size m hb
    rcases List.mem_append.mp hb with hold | hnew
    · exact placed_withOram (h.placed b size m hold)
    · cases List.mem_singleton.mp hnew
      change (Function.update p.places a.address _ a.address).isSome
      rw [Function.update_self]
      rfl

theorem Tracks.access (h : Tracks rng bucketSize pre p)
    (hmade : ∃ size n, .construct a size n ∈ pre)
    (hrun : (obliviousAccess a op i data).run p = .ok answer p') :
    Tracks rng bucketSize (pre ++ [.access a op i data]) p' ∧
      ∃ o', p'.orams a = some o' ∧ o'.positionMap i = p.randGen.leaf := by
  obtain ⟨size, n, hmem⟩ := hmade
  obtain ⟨o, o', ho, haccess, rfl⟩ := obliviousAccess_ok hrun
  obtain ⟨o₁, ho₁, _, hmax⟩ := h.made a size n hmem
  cases ho.symm.trans ho₁
  obtain ⟨hposition, hleaves', hmax', hsize', hgen⟩ := access_ok (o := p.attach a o) hmax haccess
  refine ⟨⟨h.statics, ?_, ?_, ?_, ?_⟩, _, Function.update_self _ _ _, hposition⟩
  · exact (congrArg RandomForOram.rng hgen).trans h.rng
  · intro last hlast
    rw [List.filterMap_append] at hlast
    have hsame : (pre.filterMap Event.blockNumber).getLast? = some last := by
      simpa [Event.blockNumber] using hlast
    exact (congrArg RandomForOram.bound hgen).trans (h.bound last hsame)
  · intro b size m hb
    rcases List.mem_append.mp hb with hb | hb
    · obtain ⟨u, hu, hleaves, humax⟩ := h.made b size m hb
      by_cases hba : b = a
      · subst hba
        cases ho.symm.trans hu
        exact ⟨_, Function.update_self _ _ _, hleaves'.trans hleaves,
          hmax'.trans (hmax.trans hsize'.symm)⟩
      · exact ⟨u, (Function.update_of_ne hba _ _).trans hu, hleaves, humax⟩
    · cases List.mem_singleton.mp hb
  · intro b size m hb
    rcases List.mem_append.mp hb with hb | hb
    · exact placed_withOram (h.placed b size m hb)
    · cases List.mem_singleton.mp hb

section Schedule

variable (h : Schedule bucketSize events)
include h

theorem Schedule.fresh_place {size n : ℕ} (hpre : pre ++ [.construct a size n] <+: events) :
    (∀ size m, .construct a size m ∉ pre) ∧ ∀ op i data, .access a op i data ∉ pre := by
  have hnodup := h.distinct.sublist (hpre.sublist.filterMap Event.key)
  rw [List.filterMap_append, List.nodup_append] at hnodup
  have hfresh : ∀ size m, .construct a size m ∉ pre := by
    intro size m hmem
    exact hnodup.2.2 (a.mapKey, a.oramId) (List.mem_filterMap.mpr ⟨_, hmem, rfl⟩) _
      (by simp [Event.key]) rfl
  refine ⟨hfresh, ?_⟩
  intro op i data hmem
  obtain ⟨before, after, rfl⟩ := List.append_of_mem hmem
  obtain ⟨m, hm⟩ := h.known before a op i data (by
    refine List.IsPrefix.trans ?_ hpre
    exact ⟨after ++ [.construct a size n], by simp⟩)
  exact hfresh bucketSize m (List.mem_append_left _ hm)

theorem Schedule.tracks_step (hpre : pre ++ [e] <+: events) (ht : Tracks rng bucketSize pre p)
    (hrun : e.run.run p = .ok answer p') : Tracks rng bucketSize (pre ++ [e]) p' := by
  cases e with
  | construct a size n =>
    obtain ⟨hsize, _⟩ := h.constructible a size n (hpre.subset (by simp))
    subst hsize
    obtain ⟨_, q, hmake, hrun⟩ := bind_ok hrun
    cases hrun
    exact ht.construct (h.fresh_place hpre).1 hmake
  | access a op i data =>
    obtain ⟨n, hn⟩ := h.known pre a op i data hpre
    exact (ht.access ⟨bucketSize, n, hn⟩ hrun).1

theorem Schedule.tracks (hpre : pre <+: events)
    (hrun : (runEvents pre).run (.fresh rng) = .ok answers p) : Tracks rng bucketSize pre p := by
  induction pre using List.reverseRecOn generalizing answers p with
  | nil =>
    cases hrun
    exact tracks_fresh
  | append_singleton pre e ih =>
    obtain ⟨before, q, answer, hbefore, he, _⟩ := runEvents_concat_ok hrun
    exact h.tracks_step hpre (ih ((List.prefix_append _ _).trans hpre) hbefore) he

end Schedule

def Kept (p : Process) (a : Target) (o : Oram) : Prop :=
  p.places a.address = some ⟨o.storage.capacity, o.storage.buckets⟩

theorem Kept.attach {o : Oram} (h : Kept p a o) : p.attach a o = withGen p.randGen o := by
  rw [Process.attach, Process.place, h, Option.getD_some, min_self]
  rfl

/-- No controller has left its bounds, and each one that was made last at its place is a memory of
the data that it was last given. -/
structure Remembers (pre : List Event) (p : Process) : Prop where
  within : ∀ a o, p.orams a = some o → LeavesBelow o ∧ WithinCapacity o
  memory : ∀ a o, p.orams a = some o → lastAt pre a.address = some a →
    Kept p a o ∧ ∃ m, Alone o m ∧ ∀ i : ℕ, m i = lastData pre a i

theorem lastAt_construct (pre : List Event) (a b : Target) (size n : ℕ) :
    lastAt (pre ++ [.construct a size n]) b.address =
      if a.address = b.address then some a else lastAt pre b.address := by
  rw [lastAt, List.filterMap_append, lastAt]
  by_cases h : a.address = b.address <;> simp [Event.madeAt, h]

theorem lastAt_access (pre : List Event) (a : Target) (op : Operation) (i : ℕ) (data : Str) :
    lastAt (pre ++ [.access a op i data]) = lastAt pre := by
  funext x
  rw [lastAt, List.filterMap_append, lastAt]
  simp [Event.madeAt]

theorem lastData_concat (pre : List Event) (e : Event) (a : Target) (i : ℕ) :
    lastData (pre ++ [e]) a i = (e.written a i).or (lastData pre a i) := by
  rw [lastData, List.filterMap_append]
  cases h : e.written a i with
  | none => simp [lastData, h]
  | some data => simp [h]

theorem lastData_none (h : ∀ op i data, .access a op i data ∉ pre) (i : ℕ) :
    lastData pre a i = none := by
  have hnil : pre.filterMap (Event.written a i) = [] := by
    apply List.filterMap_eq_nil_iff.mpr
    intro e he
    cases e with
    | construct => rfl
    | access b op j data =>
      cases op with
      | read => rfl
      | write =>
        by_cases hb : b = a
        · exact absurd (hb ▸ he) (h _ _ _)
        · simp [Event.written, hb]
  rw [lastData, hnil]
  rfl

theorem makeController_run {n : ℕ} (hstatics : p.statics.isInit → p.statics.maxSize = bucketSize)
    (hc : Constructible bucketSize n) (haccepts : p.accepts a.address) :
    ∃ p', (makeController a bucketSize n).run p = .ok ⟨⟩ p' := by
  have ho := construct_run hc p.randGen
  generalize List.foldl _ _ _ = o at ho
  have hinit : ¬ (p.statics.isInit ∧ (bucketSize : ℤ) ≠ p.statics.maxSize) := by
    intro hboth
    exact hboth.2 (hstatics hboth.1).symm
  refine ⟨{ p.withOram a o.storage.capacity o with statics := ⟨true, bucketSize⟩ }, ?_⟩
  change makeController a bucketSize n p = _
  rw [makeController, if_neg hinit, ho]
  exact if_pos haccepts

theorem Remembers.construct {n : ℕ} (h : Remembers pre p)
    (hfresh : ∀ op i data, .access a op i data ∉ pre)
    (hrun : (makeController a bucketSize n).run p = .ok ⟨⟩ p') :
    Remembers (pre ++ [.construct a bucketSize n]) p' := by
  obtain ⟨o, ho, rfl⟩ := makeController_ok hrun
  have halone := (alone_construct ho).1
  refine ⟨?_, ?_⟩
  · intro b u hu
    rcases update_cases hu with ⟨rfl, rfl⟩ | ⟨_, hold⟩
    · exact ⟨halone.leavesBelow, halone.within⟩
    · exact h.within b u hold
  · intro b u hu hlast
    have hsame : ∀ i, lastData (pre ++ [.construct a bucketSize n]) b i = lastData pre b i :=
      fun i => lastData_concat _ _ _ _
    simp only [hsame]
    rw [lastAt_construct] at hlast
    rcases update_cases hu with ⟨rfl, rfl⟩ | ⟨hb, hold⟩
    · exact ⟨Function.update_self _ _ _, _, halone, fun i => (lastData_none hfresh i).symm⟩
    · -- a controller with the place of the new one is no longer the last there
      have hplace : ¬ a.address = b.address := by
        intro heq
        rw [if_pos heq, Option.some.injEq] at hlast
        exact hb hlast.symm
      rw [if_neg hplace] at hlast
      obtain ⟨hkept, hmemory⟩ := h.memory b u hold hlast
      exact ⟨(Function.update_of_ne (Ne.symm hplace) _ _).trans hkept, hmemory⟩

/-- An access of the controller that was made last at its place is answered with the data last
given, if the bound is not too great. -/
theorem Remembers.access (h : Remembers pre p) {o : Oram} (ho : p.orams a = some o)
    (hlast : lastAt pre a.address = some a) (hpos : 0 < p.randGen.bound)
    (hbound : p.randGen.bound ≤ o.numLeaves) (hi : i < 2 ^ 31) (op : Operation) (data : Str) :
    ∃ answer p', (obliviousAccess a op i data).run p = .ok answer p' ∧
      Remembers (pre ++ [.access a op i data]) p' ∧
      (op = .read → answer = (lastData pre a i).getD []) := by
  obtain ⟨hkept, m, halone, hm⟩ := h.memory a o ho hlast
  obtain ⟨o', hrun, halone', hcapacity⟩ := halone.access hpos hbound hi op data
  have hplace : (p.place a).size = o.storage.capacity := by rw [Process.place, hkept]; rfl
  have hsame : withCapacity o.storage.capacity o' = o' := by rw [withCapacity, ← hcapacity]
  refine ⟨reply m (.access op i data), p.withOram a o.storage.capacity o', ?_, ⟨?_, ?_⟩, ?_⟩
  · change obliviousAccess a op i data p = _
    rw [obliviousAccess, ho]
    simp only [hkept.attach, hrun, hplace, hsame]
  · intro b u hu
    rcases update_cases hu with ⟨rfl, rfl⟩ | ⟨_, hold⟩
    · exact ⟨halone'.leavesBelow, halone'.within⟩
    · exact h.within b u hold
  · intro b u hu hlast'
    rw [lastAt_access] at hlast'
    rcases update_cases hu with ⟨rfl, rfl⟩ | ⟨hb, hold⟩
    · refine ⟨?_, _, halone', ?_⟩
      · rw [Kept, hcapacity]
        exact Function.update_self _ _ _
      intro j
      rw [lastData_concat]
      cases op with
      | read => exact hm j
      | write =>
        by_cases hj : i = j
        · subst hj
          simp [store, Call.op, Call.index, Call.data, Event.written]
        · have hne : (j : ℤ) ≠ i := by omega
          simp [store, Call.op, Call.index, Event.written, hj, hne, hm j]
    · have hother : b.address ≠ a.address := by
        intro heq
        rw [heq, hlast, Option.some.injEq] at hlast'
        exact hb hlast'.symm
      obtain ⟨hkept', m', halone'', hm'⟩ := h.memory b u hold hlast'
      refine ⟨(Function.update_of_ne hother _ _).trans hkept', m', halone'', ?_⟩
      intro j
      rw [lastData_concat, hm' j]
      cases op with
      | read => rfl
      | write => simp [Event.written, Ne.symm hb]
  · intro hop
    subst hop
    simp [reply, Call.op, Call.index, hm i]

theorem leavesFor_pos (n : ℕ) : 0 < leavesFor n := Nat.two_pow_pos _

theorem leaf_greatest {n : ℕ} (hn : 0 < n) (used : ℕ) :
    RandomForOram.leaf ⟨n, fun _ => -1, used⟩ = n - 1 := by
  change (if Int.tmod (-1) (n : ℤ) < 0 then Int.tmod (-1) (n : ℤ) + n
    else Int.tmod (-1) (n : ℤ)).toNat = n - 1
  by_cases hone : n = 1
  · subst hone
    rfl
  · have hmod : Int.tmod (-1) (n : ℤ) = -1 := by
      rw [Int.neg_tmod, Int.tmod_eq_of_lt (by omega) (by omega)]
    rw [hmod, if_pos (by omega)]
    omega

section Isolation

variable (h : Schedule bucketSize events)
include h

theorem Schedule.bound_at (hpre : pre ++ [.access a op i data] <+: events)
    (ht : Tracks rng bucketSize pre p) : ∃ n last, .construct a bucketSize n ∈ pre ∧
      (pre.filterMap Event.blockNumber).getLast? = some last ∧
      p.randGen.bound = leavesFor last := by
  obtain ⟨n, hn⟩ := h.known pre a op i data hpre
  have hmem : n ∈ pre.filterMap Event.blockNumber := List.mem_filterMap.mpr ⟨_, hn, rfl⟩
  have hlast := List.getLast?_eq_some_getLast (List.ne_nil_of_mem hmem)
  exact ⟨n, _, hn, hlast, ht.bound _ hlast⟩

theorem Schedule.step (hkept : BoundKept events) (hplaces : PlacesKept events)
    (hpre : pre ++ [e] <+: events)
    (ht : Tracks rng bucketSize pre p) (hr : Remembers pre p) :
    ∃ answer p', e.run.run p = .ok answer p' ∧ Remembers (pre ++ [e]) p' ∧
      ∀ a i data, e = .access a .read i data → answer = (lastData pre a i).getD [] := by
  have hmem : e ∈ events := hpre.subset (by simp)
  cases e with
  | construct a size n =>
    obtain ⟨hsize, hc⟩ := h.constructible a size n hmem
    subst hsize
    have haccepts : p.accepts a.address := by
      cases haddress : a.address with
      | odict mapKey => rfl
      | oram mapKey oramId =>
        apply List.all_eq_true.mpr
        intro j hj
        obtain ⟨b, size, m, hb, hm⟩ :=
          h.numbered pre a _ n mapKey oramId hpre haddress j (List.mem_range.mp hj)
        rw [← hb]
        exact ht.placed b size m hm
    obtain ⟨p', hrun⟩ := makeController_run ht.statics hc haccepts
    refine ⟨[], p', run_bind_ok hrun, hr.construct (h.fresh_place hpre).2 hrun, ?_⟩
    intro _ _ _ heq
    cases heq
  | access a op i data =>
    obtain ⟨n, last, hn, hlast, hbound⟩ := h.bound_at hpre ht
    obtain ⟨o, ho, hleaves, _⟩ := ht.made a bucketSize n hn
    have hle : p.randGen.bound ≤ o.numLeaves := by
      rw [hbound, hleaves]
      exact hkept pre a op i data hpre bucketSize n last hn hlast
    obtain ⟨answer, p', hrun, hr', hanswer⟩ := hr.access ho (hplaces pre a op i data hpre)
      (hbound ▸ leavesFor_pos last) hle (h.range a op i data hmem) op data
    refine ⟨answer, p', hrun, hr', ?_⟩
    intro b j other heq
    cases heq
    exact hanswer rfl

theorem Schedule.run (hkept : BoundKept events) (hplaces : PlacesKept events)
    (hpre : pre <+: events) (rng : ℕ → ℤ) :
    ∃ answers p, (runEvents pre).run (.fresh rng) = .ok answers p ∧ Remembers pre p ∧
      answers.length = pre.length ∧ ∀ k a i data, pre[k]? = some (.access a .read i data) →
        answers[k]? = some ((lastData (pre.take k) a i).getD []) := by
  induction pre using List.reverseRecOn with
  | nil =>
    refine ⟨[], .fresh rng, rfl, ⟨?_, ?_⟩, rfl, ?_⟩
    · intro a o ho
      cases ho
    · intro a o ho
      cases ho
    · intro k a i data hk
      cases hk
  | append_singleton pre e ih =>
    obtain ⟨answers, p, hrun, hr, hlength, hanswers⟩ := ih ((List.prefix_append _ _).trans hpre)
    have ht := h.tracks ((List.prefix_append _ _).trans hpre) hrun
    obtain ⟨answer, p', he, hr', hanswer⟩ := h.step hkept hplaces hpre ht hr
    refine ⟨answers ++ [answer], p', ?_, hr', by simp [hlength], ?_⟩
    · rw [runEvents_concat]
      exact (run_bind_ok hrun).trans ((run_bind_ok he).trans rfl)
    · intro k a i data hk
      rcases lt_trichotomy k pre.length with hlt | heq | hgt
      · rw [List.getElem?_append_left hlt] at hk
        rw [List.getElem?_append_left (hlength ▸ hlt), List.take_append_of_le_length hlt.le]
        exact hanswers k a i data hk
      · subst heq
        rw [List.getElem?_concat_length, Option.some.injEq] at hk
        rw [← hlength, List.getElem?_concat_length, hlength, List.take_left,
          hanswer a i data hk]
      · rw [List.getElem?_eq_none (by simp; omega)] at hk
        cases hk

/-- An isolated run keeps the bound, if every value of the generator goes to the greatest leaf. -/
theorem Schedule.bound_le (hisolated : Isolated (fun _ => -1) events)
    (hpre : pre ++ [.access a op i data] <+: events) {size n last : ℕ}
    (hn : .construct a size n ∈ pre)
    (hlast : (pre.filterMap Event.blockNumber).getLast? = some last) :
    leavesFor last ≤ leavesFor n := by
  obtain ⟨answers, p', hrun, hbounds, _⟩ := hisolated _ hpre
  obtain ⟨before, p, answer, hbefore, he, _⟩ := runEvents_concat_ok hrun
  have ht := h.tracks ((List.prefix_append _ _).trans hpre) hbefore
  obtain ⟨ht', o, ho, hposition⟩ := ht.access ⟨size, n, hn⟩ he
  obtain ⟨o', ho', hleaves, _⟩ := ht'.made a size n (List.mem_append_left _ hn)
  cases ho.symm.trans ho'
  have hlt := (hbounds a o ho).1 i
  have hgen : p.randGen = ⟨leavesFor last, fun _ => -1, p.randGen.used⟩ := by
    rw [← ht.bound last hlast, ← ht.rng]
  rw [hposition, hleaves, hgen, leaf_greatest (leavesFor_pos last)] at hlt
  have hpos := leavesFor_pos last
  omega

end Isolation

theorem schedule_two {a b : Target} {n m : ℕ} (accesses : List (Target × Operation × ℕ × Str))
    (hne : (a.mapKey, a.oramId) ≠ (b.mapKey, b.oramId))
    (hfirst : ∀ mapKey oramId, a.address = .oram mapKey oramId → oramId = 0)
    (hsecond : ∀ mapKey oramId, b.address = .oram mapKey oramId →
      ∀ j < oramId, a.address = .oram mapKey j)
    (hn : Constructible bucketSize n) (hm : Constructible bucketSize m)
    (hmade : ∀ x ∈ accesses, (x.1 = a ∨ x.1 = b) ∧ x.2.2.1 < 2 ^ 31) :
    Schedule bucketSize (.construct a bucketSize n :: .construct b bucketSize m ::
      accesses.map fun x => .access x.1 x.2.1 x.2.2.1 x.2.2.2) := by
  have haccess : ∀ {pre e t}, pre ++ [e] ++ t = accesses.map
      (fun x : Target × Operation × ℕ × Str => Event.access x.1 x.2.1 x.2.2.1 x.2.2.2) →
      ∃ x ∈ accesses, e = .access x.1 x.2.1 x.2.2.1 x.2.2.2 := by
    intro pre e t heq
    have he : e ∈ accesses.map fun x => Event.access x.1 x.2.1 x.2.2.1 x.2.2.2 := by
      rw [← heq]
      simp
    obtain ⟨x, hx, rfl⟩ := List.mem_map.mp he
    exact ⟨x, hx, rfl⟩
  refine ⟨?_, ?_, ?_, ?_, ?_⟩
  · have hnil : (accesses.map fun x => Event.access x.1 x.2.1 x.2.2.1 x.2.2.2).filterMap
        Event.key = [] := by
      apply List.filterMap_eq_nil_iff.mpr
      intro e he
      obtain ⟨x, _, rfl⟩ := List.mem_map.mp he
      rfl
    simpa [Event.key, hnil] using hne
  · intro pre c size k mapKey oramId hpre haddress j hj
    obtain ⟨t, heq⟩ := hpre
    rcases pre with _ | ⟨first, _ | ⟨second, pre⟩⟩
    · cases heq
      have hzero := hfirst _ _ haddress
      omega
    · cases heq
      exact ⟨a, bucketSize, n, hsecond _ _ haddress j hj, List.mem_singleton_self _⟩
    · injection heq with _ heq
      injection heq with _ heq
      obtain ⟨x, _, he⟩ := haccess heq
      cases he
  · intro c size k hmem
    rcases List.mem_cons.mp hmem with heq | hmem
    · cases heq
      exact ⟨rfl, hn⟩
    rcases List.mem_cons.mp hmem with heq | hmem
    · cases heq
      exact ⟨rfl, hm⟩
    · obtain ⟨x, _, heq⟩ := List.mem_map.mp hmem
      cases heq
  · intro pre c op i data hpre
    obtain ⟨t, heq⟩ := hpre
    rcases pre with _ | ⟨first, _ | ⟨second, pre⟩⟩
    · cases heq
    · cases heq
    · injection heq with hone heq
      injection heq with htwo heq
      obtain ⟨x, hx, he⟩ := haccess heq
      cases he
      rcases (hmade x hx).1 with hc | hc
      · exact ⟨n, by simp [hone, hc]⟩
      · exact ⟨m, by simp [htwo, hc]⟩
  · intro c op i data hmem
    rcases List.mem_cons.mp hmem with heq | hmem
    · cases heq
    rcases List.mem_cons.mp hmem with heq | hmem
    · cases heq
    · obtain ⟨x, hx, heq⟩ := List.mem_map.mp hmem
      cases heq
      exact (hmade x hx).2

theorem constructible_one : Constructible 2 1 := ⟨by decide, by decide, by decide⟩

theorem constructible_two : Constructible 2 2 := ⟨by decide, by decide, by decide⟩

def subOram (oramId : ℤ) : Target := ⟨false, oramId, []⟩

theorem schedule_subOrams {n m : ℕ} (accesses : List (Operation × ℕ × Str))
    (hn : Constructible bucketSize n) (hm : Constructible bucketSize m)
    (hrange : ∀ x ∈ accesses, x.2.1 < 2 ^ 31) :
    Schedule bucketSize (.construct (subOram 0) bucketSize n ::
      .construct (subOram 1) bucketSize m ::
        accesses.map fun x => .access (subOram 0) x.1 x.2.1 x.2.2) := by
  have hzero : (subOram 0).address = .oram [] 0 := rfl
  have hone : (subOram 1).address = .oram [] 1 := rfl
  have h := schedule_two (a := subOram 0) (b := subOram 1)
    (accesses.map fun x => (subOram 0, x.1, x.2.1, x.2.2)) (by decide) ?_ ?_ hn hm ?_
  · rwa [List.map_map] at h
  · intro mapKey oramId heq
    rw [hzero] at heq
    cases heq
    rfl
  · intro mapKey oramId heq j hj
    rw [hone] at heq
    cases heq
    rw [hzero, Nat.lt_one_iff.mp hj]
  · intro x hx
    obtain ⟨y, hy, rfl⟩ := List.mem_map.mp hx
    exact ⟨Or.inl rfl, hrange y hy⟩

/-- Controllers are isolated if each is accessed only while the one made last has at most as many
leaves, and while none was made after it at its place on the server. They never are without the
first condition. -/
theorem isolated_of_kept (h : Schedule bucketSize events) :
    (BoundKept events ∧ PlacesKept events → ∀ rng, Isolated rng events) ∧
      ((∀ rng, Isolated rng events) → BoundKept events) := by
  constructor
  · rintro ⟨hkept, hplaces⟩ rng pre hpre
    obtain ⟨answers, p, hrun, hr, _, hanswers⟩ := h.run hkept hplaces hpre rng
    exact ⟨answers, p, hrun, hr.within, hanswers⟩
  · intro hisolated pre a op i data hpre size n last hn hlast
    exact h.bound_le (hisolated _) hpre hn hlast

theorem isolated_of_kept_two : ∃ events, Schedule 2 events ∧ events.length = 4 ∧
    ∀ rng, Isolated rng events := by
  have h := schedule_subOrams [(.write, 1, [7]), (.read, 1, [])] constructible_two
    constructible_one (by simp)
  refine ⟨_, h, rfl, (isolated_of_kept h).1 ⟨?_, ?_⟩⟩
  · intro pre a op i data hpre size n last _ hlast
    obtain ⟨t, heq⟩ := hpre
    have hone : last = 1 := by
      rcases pre with _ | ⟨first, _ | ⟨second, _ | ⟨third, _ | ⟨fourth, pre⟩⟩⟩⟩
      · cases heq
      · cases heq
      · cases heq
        exact (Option.some.inj hlast).symm
      · cases heq
        exact (Option.some.inj hlast).symm
      · simp at heq
    have hleaves : leavesFor 1 = 1 := by decide
    rw [hone, hleaves]
    exact leavesFor_pos n
  · intro pre a op i data hpre
    obtain ⟨t, heq⟩ := hpre
    rcases pre with _ | ⟨first, _ | ⟨second, _ | ⟨third, _ | ⟨fourth, pre⟩⟩⟩⟩
    · cases heq
    · cases heq
    · cases heq
      decide
    · cases heq
      decide
    · simp at heq

/-- The second controller has two leaves, and the first, which has one, samples leaf 1. -/
theorem bound_overwritten : ∃ events, Schedule 2 events ∧ ¬ ∀ rng, Isolated rng events := by
  refine ⟨[.construct (subOram 0) 2 1, .construct (subOram 1) 2 2,
    .access (subOram 0) .write 0 [7]], ?_⟩
  have h := schedule_subOrams [(.write, 0, [7])] constructible_one constructible_two (by simp)
  refine ⟨h, ?_⟩
  intro hisolated
  have hpre : [.construct (subOram 0) 2 1, .construct (subOram 1) 2 2] ++
      [.access (subOram 0) .write 0 [7]] <+: [.construct (subOram 0) 2 1,
        .construct (subOram 1) 2 2, Event.access (subOram 0) .write 0 [7]] := List.prefix_rfl
  have hle := h.bound_le (hisolated _) hpre List.mem_cons_self rfl
  exact absurd hle (by decide)

def answerAt (k : ℕ) : EStateM.Result ProcessError Process (List Str) → Option Str
  | .ok answers _ => answers[k]?
  | .error _ _ => none

/-- Two dictionaries with one map key have different numbers and one place. -/
theorem place_overwritten : ∃ events, Schedule 2 events ∧ BoundKept events ∧
    ¬ ∀ rng, Isolated rng events := by
  refine ⟨[.construct ⟨true, 0, []⟩ 2 1, .construct ⟨true, 1, []⟩ 2 1,
    .access ⟨true, 0, []⟩ .write 0 [7], .access ⟨true, 1, []⟩ .write 0 [8],
    .access ⟨true, 0, []⟩ .read 0 []], ?_, ?_, ?_⟩
  · refine schedule_two [(⟨true, 0, []⟩, .write, 0, [7]), (⟨true, 1, []⟩, .write, 0, [8]),
      (⟨true, 0, []⟩, .read, 0, [])] (by decide) ?_ ?_ constructible_one constructible_one ?_
    · intro mapKey oramId heq
      cases heq
    · intro mapKey oramId heq
      cases heq
    · simp
  · intro pre a op i data hpre size n last _ hlast
    have hone : last = 1 := by
      have hmem := List.mem_of_getLast? hlast
      have hsub := (hpre.sublist.filterMap Event.blockNumber).subset
        (List.filterMap_subset _ (List.subset_append_left _ _) hmem)
      simpa [Event.blockNumber] using hsub
    have hleaves : leavesFor 1 = 1 := by decide
    rw [hone, hleaves]
    exact leavesFor_pos n
  · intro hisolated
    obtain ⟨answers, p, hrun, _, hreads⟩ := hisolated (fun _ => 0) _ List.prefix_rfl
    have hread := hreads 4 _ _ _ rfl
    have hanswer : answerAt 4 ((runEvents [.construct ⟨true, 0, []⟩ 2 1,
        .construct ⟨true, 1, []⟩ 2 1, .access ⟨true, 0, []⟩ .write 0 [7],
        .access ⟨true, 1, []⟩ .write 0 [8], .access ⟨true, 0, []⟩ .read 0 []]).run
          (.fresh fun _ => 0)) = some [8] := by decide +kernel
    rw [hrun, answerAt, hread] at hanswer
    exact absurd hanswer (by decide)

end ControllerIsolation
