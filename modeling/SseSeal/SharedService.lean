import SseSeal.ControllerIsolation
import SseSeal.SealService

/-! Client processes that use one `SealService`, each under map keys of its own. A step is one
call to the server. A bucket carries the static members of `Bucket` with it: to write it assigns
them in the process of the server, to read it in the process of the client. -/
namespace SharedService

open Bytes Objects OramReadPathEviction StateExcept PathTree OramEviction OramAccess OramBlocks
open OramCalls BucketArchive SealService

/-- The client processes: which one uses a map key, and what its controllers are made with. -/
structure Clients (ι : Type) where
  owner : Str → ι
  bucketSize : ι → ℕ
  blockNumber : ι → ℕ
  bucketSize_lt : ∀ i, bucketSize i < 2 ^ 31

structure Controller where
  positionMap : ℕ → ℕ
  stash : List Block
  calls : List StorageCall

/-- What a process is at: the bucket that the constructor writes next, the level that
`access_handler` reads next, or the number of levels that it still has to write. -/
inductive Task where
  | filling (position : ℕ)
  | reading (call : Call) (oldLeaf : ℕ) (newLeaf : ℤ) (level : ℕ)
  | evicting (oldLeaf : ℕ) (answer : Str) (levels : ℕ)

structure Process where
  statics : Statics
  randGen : RandomForOram
  task : Option (Address × Task)

structure Network (ι : Type) where
  service : Service
  processes : ι → Process
  controllers : Address → Option Controller

def Network.initial {ι : Type} (rng : ι → ℕ → ℤ) : Network ι :=
  ⟨.initial, fun i => ⟨.initial, ⟨0, rng i, 0⟩, none⟩, fun _ => none⟩

def mapKey : Address → Str
  | .odict mapKey => mapKey
  | .oram mapKey _ => mapKey

def target : Address → Target
  | .odict mapKey => ⟨true, -1, mapKey⟩
  | .oram mapKey oramId => ⟨false, oramId, mapKey⟩

section Steps

variable {ι : Type} [DecidableEq ι] (clients : Clients ι) (codec : Codec Node) (archive : Archive)

def Clients.ownerOf (a : Address) : ι := clients.owner (mapKey a)

def Clients.blank (a : Address) (randGen : RandomForOram) : Oram :=
  OramReadPathEviction.blank (clients.bucketSize (clients.ownerOf a))
    (clients.blockNumber (clients.ownerOf a)) .new randGen

/-- A controller with the buckets that the server has for it, and what its process shares. -/
def Network.oram (n : Network ι) (a : Address) (c : Controller) : Oram :=
  let p := n.processes (clients.ownerOf a)
  let o := clients.blank a p.randGen
  { o with
    positionMap := c.positionMap
    stash := c.stash
    maxSize := toUnsigned p.statics.maxSize
    storage := ⟨o.numBuckets, fun position =>
      ((n.service.bucketsOf a).getD [])[position]?.getD [], c.calls, fun _ => false⟩ }

def Network.set (n : Network ι) (a : Address) (service : Service) (p : Process) (c : Controller) :
    Network ι where
  service := service
  processes := Function.update n.processes (clients.ownerOf a) p
  controllers := Function.update n.controllers a (some c)

/-- The constructor of `OramAccessController`, up to its first `WriteBucket`. -/
def construct (n : Network ι) (a : Address) : Option (Network ι) :=
  let i := clients.ownerOf a
  let p := n.processes i
  let o := clients.blank a p.randGen
  if p.task.isSome ∨ (target a).address ≠ a then none
  else if p.statics.isInit ∧ (clients.bucketSize i : ℤ) ≠ p.statics.maxSize then none
  else if o.numBlocks = 0 ∨ 31 < o.numLevels then none
  else if o.numBuckets * o.bucketSize % 2 ^ 32 < o.numBlocks then none
  else
    match (setCapacity ⟨target a, o.numBuckets⟩).run n.service with
    | .ok .ok service =>
      let drawn := (List.range o.numBlocks).foldl (fun o i => drawStep i o) o.sized
      some (n.set clients a service
        ⟨⟨true, clients.bucketSize i⟩, drawn.randGen, some (a, .filling 0)⟩
        ⟨drawn.positionMap, [], []⟩)
    | _ => none

def access (n : Network ι) (a : Address) (call : Call) : Option (Network ι) :=
  let p := n.processes (clients.ownerOf a)
  match n.controllers a with
  | none => none
  | some c =>
    if p.task.isSome then none
    else
      let o := n.oram clients a c
      let prepared := call.prepare o
      some (n.set clients a n.service
        { p with
          randGen := prepared.randGen
          task := some (a, .reading call (o.positionMap call.index) (call.newLeaf o) 0) }
        { c with positionMap := prepared.positionMap })

/-- The task and the stash when the bucket at a level was read: after the last one the stash is
accessed. -/
def afterRead (numLevels : ℕ) (call : Call) (oldLeaf : ℕ) (newLeaf : ℤ) (level : ℕ)
    (stash : List Block) : Task × List Block :=
  if level + 1 < numLevels then (.reading call oldLeaf newLeaf (level + 1), stash)
  else
    let index := toInt call.index
    (.evicting oldLeaf (stashAnswer call.op index stash) numLevels,
      stashUpdate call.op index newLeaf (call.data codec) stash)

/-- `ServerStorage::ReadBucket`, and what `access_handler` does before its next call. -/
def readBucket (n : Network ι) (i : ι) : Option (Network ι) :=
  let p := n.processes i
  match p.task with
  | some (a, .reading call oldLeaf newLeaf level) =>
    match n.controllers a with
    | none => none
    | some c =>
      let o := n.oram clients a c
      let position := o.P oldLeaf level
      if o.storage.capacity ≤ position then none
      else
        match (SealService.readBucket archive ⟨target a, position⟩).run n.service with
        | .error _ _ => none
        | .ok response service =>
          match archive.deserialize response with
          | none => none
          | some blocks =>
            let (task, stash) := afterRead codec o.numLevels call oldLeaf newLeaf level
              (c.stash ++ blocks.filter (·.index != -1))
            some (n.set clients a service
              { p with
                statics := archive.assign response p.statics
                task := some (a, task) }
              { c with stash := stash, calls := c.calls ++ [.read position] })
  | _ => none

/-- The blocks for the bucket at a level, the indices of those taken from the stash, and their
number. -/
def Network.collected (n : Network ι) (a : Address) (c : Controller) (oldLeaf level : ℕ) :
    Bucket × List ℤ × ℕ :=
  let o := n.oram clients a c
  collect o.bucketSize o.maxSize
    (fun b => o.P oldLeaf level = o.P (o.positionMap (toUnsigned b.index)) level)
    o.stash ([], [], 0)

/-- `ServerStorage::WriteBucket`. -/
def send (n : Network ι) (a : Address) (position : ℕ) (bucket : Bucket) : Option Service :=
  let p := n.processes (clients.ownerOf a)
  if (clients.blank a p.randGen).numBuckets ≤ position then none
  else
    match (SealService.writeBucket archive
      ⟨target a, position, archive.serialize p.statics bucket⟩).run n.service with
    | .ok .ok service => some service
    | _ => none

def writeBucket (n : Network ι) (i : ι) : Option (Network ι) :=
  let p := n.processes i
  match p.task with
  | some (a, .filling position) =>
    match n.controllers a with
    | none => none
    | some c =>
      let o := n.oram clients a c
      match send clients archive n a position (padBucket o.maxSize [] o.bucketSize) with
      | none => none
      | some service =>
        let next := if position + 1 < o.numBuckets then some (a, .filling (position + 1)) else none
        some (n.set clients a service { p with task := next }
          { c with calls := c.calls ++ [.write position] })
  | some (a, .evicting oldLeaf answer (level + 1)) =>
    match n.controllers a with
    | none => none
    | some c =>
      let o := n.oram clients a c
      let (bucket, bidEvicted, counter) := n.collected clients a c oldLeaf level
      let position := o.P oldLeaf level
      match send clients archive n a position
        (padBucket o.maxSize bucket (o.bucketSize - counter)) with
      | none => none
      | some service =>
        let next := if 0 < level then some (a, .evicting oldLeaf answer level) else none
        some (n.set clients a service { p with task := next }
          { c with
            stash := eraseEvicted bidEvicted c.stash
            calls := c.calls ++ [.write position] })
  | _ => none

inductive Event (ι : Type) where
  | construct (a : Address)
  | access (a : Address) (call : Call)
  | readBucket (i : ι)
  | writeBucket (i : ι)

/-- The state after an event that is possible, and whose calls all complete. -/
def next (n : Network ι) : Event ι → Option (Network ι)
  | .construct a => construct clients n a
  | .access a call => access clients n a call
  | .readBucket i => readBucket clients codec archive n i
  | .writeBucket i => writeBucket clients archive n i

def run (n : Network ι) : List (Event ι) → Option (Network ι)
  | [] => some n
  | e :: events =>
    match next clients codec archive n e with
    | none => none
    | some n' => run n' events

end Steps

variable {ι : Type} [DecidableEq ι] {clients : Clients ι} {codec : Codec Node} {archive : Archive}
  {n n' : Network ι} {a : Address} {i : ι} {service : Service}

def Network.bucket (n : Network ι) (a : Address) (position : ℕ) : Bucket :=
  ((n.service.bucketsOf a).getD [])[position]?.getD []

def Clients.drawn (clients : Clients ι) (a : Address) (randGen : RandomForOram) : Oram :=
  (List.range (clients.blockNumber (clients.ownerOf a))).foldl (fun o i => drawStep i o)
    (clients.blank a randGen).sized

/-- The messages for an address are for it, and a controller can be made. -/
structure Clients.Serves (clients : Clients ι) (a : Address) : Prop where
  address : (target a).address = a
  constructible : ControllerIsolation.Constructible (clients.bucketSize (clients.ownerOf a))
    (clients.blockNumber (clients.ownerOf a))

theorem numBuckets_lt {levels : ℕ} (h : levels ≤ 31) : 2 ^ levels - 1 < 2 ^ 31 := by
  have hpow : 2 ^ levels ≤ 2 ^ 31 := Nat.pow_le_pow_right (by omega) h
  omega

structure Constructs (clients : Clients ι) (n : Network ι) (a : Address) (service : Service) :
    Prop where
  idle : (n.processes (clients.ownerOf a)).task = none
  serves : clients.Serves a
  sameSize : (n.processes (clients.ownerOf a)).statics.isInit →
    (n.processes (clients.ownerOf a)).statics.maxSize = clients.bucketSize (clients.ownerOf a)
  replaced : Replaced n.service a
    (List.replicate (clients.blank a (n.processes (clients.ownerOf a)).randGen).numBuckets [])
    service

theorem construct_ok (h : construct clients n a = some n') : ∃ service,
    Constructs clients n a service ∧
      n' = n.set clients a service
        ⟨⟨true, clients.bucketSize (clients.ownerOf a)⟩,
          (clients.drawn a (n.processes (clients.ownerOf a)).randGen).randGen,
          some (a, .filling 0)⟩
        ⟨(clients.drawn a (n.processes (clients.ownerOf a)).randGen).positionMap, [], []⟩ := by
  dsimp only [construct] at h
  split at h
  · cases h
  rename_i hidle
  split at h
  · cases h
  rename_i hinit
  split at h
  · cases h
  rename_i hlevels
  split at h
  · cases h
  rename_i hspace
  split at h
  · rename_i service hset
    cases h
    rw [not_or, not_not, Bool.not_eq_true, Option.isSome_eq_false_iff, Option.isNone_iff_eq_none]
      at hidle
    rw [not_or] at hlevels
    have hreplaced := setCapacity_ok hset
    have hsmall : (clients.blank a (n.processes (clients.ownerOf a)).randGen).numBuckets < 2 ^ 31 :=
      numBuckets_lt (not_lt.mp hlevels.2)
    refine ⟨service, ⟨hidle.1, ⟨hidle.2, ⟨hlevels.1, not_lt.mp hlevels.2, not_lt.mp hspace⟩⟩, ?_,
      ?_⟩, rfl⟩
    · intro hi
      by_contra hne
      exact hinit ⟨hi, Ne.symm hne⟩
    · dsimp only at hreplaced
      rw [hidle.2, toUnsigned_natCast hsmall] at hreplaced
      exact hreplaced
  · cases h

theorem access_ok {call : Call} (h : access clients n a call = some n') : ∃ c,
    n.controllers a = some c ∧ (n.processes (clients.ownerOf a)).task = none ∧
      n' = n.set clients a n.service
        { n.processes (clients.ownerOf a) with
          randGen := (call.prepare (n.oram clients a c)).randGen
          task := some (a, .reading call ((n.oram clients a c).positionMap call.index)
            (call.newLeaf (n.oram clients a c)) 0) }
        { c with positionMap := (call.prepare (n.oram clients a c)).positionMap } := by
  dsimp only [access] at h
  split at h
  · cases h
  rename_i c hc
  split at h
  · cases h
  rename_i hidle
  cases h
  exact ⟨c, hc, by simpa using hidle, rfl⟩

def Network.afterRead (clients : Clients ι) (codec : Codec Node) (n : Network ι) (a : Address)
    (c : Controller) (call : Call) (oldLeaf : ℕ) (newLeaf : ℤ) (level : ℕ) : Network ι :=
  let o := n.oram clients a c
  let position := o.P oldLeaf level
  let after := SharedService.afterRead codec o.numLevels call oldLeaf newLeaf level
    (c.stash ++ real (n.bucket a position))
  n.set clients a n.service
    { n.processes (clients.ownerOf a) with
      statics := n.service.statics
      task := some (a, after.1) }
    { c with stash := after.2, calls := c.calls ++ [.read position] }

structure Ordered (clients : Clients ι) (n : Network ι) : Prop where
  owner : ∀ i a t, (n.processes i).task = some (a, t) → clients.ownerOf a = i
  serves : ∀ a c, n.controllers a = some c → clients.Serves a

theorem readBucket_ok (ho : Ordered clients n)
    (h : readBucket clients codec archive n i = some n') : ∃ a call oldLeaf newLeaf level c,
    clients.ownerOf a = i ∧ (n.processes i).task = some (a, .reading call oldLeaf newLeaf level) ∧
      n.controllers a = some c ∧
      n' = n.afterRead clients codec a c call oldLeaf newLeaf level := by
  dsimp only [readBucket] at h
  split at h
  · rename_i a call oldLeaf newLeaf level htask
    split at h
    · cases h
    rename_i c hc
    split at h
    · cases h
    rename_i hposition
    split at h
    · cases h
    rename_i response service hread
    obtain ⟨bucket, hat, rfl, rfl⟩ := SealService.readBucket_ok hread
    rw [archive.roundTrip] at h
    cases h
    have howner := ho.owner i a _ htask
    obtain ⟨haddress, _, hlevels, _⟩ := ho.serves a c hc
    refine ⟨a, call, oldLeaf, newLeaf, level, c, howner, htask, hc, ?_⟩
    have hlt : (n.oram clients a c).P oldLeaf level < 2 ^ 31 :=
      (not_le.mp hposition).trans (numBuckets_lt hlevels)
    have hbucket : n.bucket a ((n.oram clients a c).P oldLeaf level) = bucket := by
      dsimp only at hat
      rw [haddress, Service.bucketAt, toUnsigned_natCast hlt] at hat
      obtain ⟨buckets, hbuckets, hat⟩ := Option.bind_eq_some_iff.mp hat
      rw [Network.bucket, hbuckets, Option.getD_some, hat, Option.getD_some]
    subst howner
    rw [Network.afterRead, hbucket, archive.assign_serialize]
    rfl
  · cases h

omit [DecidableEq ι] in
theorem send_ok {bucket : Bucket} {position : ℕ} (hs : clients.Serves a)
    (h : send clients archive n a position bucket = some service) :
    ∃ buckets, n.service.bucketsOf a = some buckets ∧ position < buckets.length ∧
      Replaced { n.service with statics := (n.processes (clients.ownerOf a)).statics } a
        (buckets.set position bucket) service := by
  dsimp only [send] at h
  split at h
  · cases h
  rename_i hposition
  split at h
  · rename_i written hwrite
    cases h
    obtain ⟨haddress, _, hlevels, _⟩ := hs
    have hlt := (not_le.mp hposition).trans (numBuckets_lt hlevels)
    obtain ⟨buckets, hbuckets, hlength, hreplaced⟩ :=
      SealService.writeBucket_ok (archive.roundTrip _ _) hwrite
    dsimp only at hbuckets hlength hreplaced
    rw [haddress] at hbuckets hreplaced
    rw [toUnsigned_natCast hlt] at hlength hreplaced
    rw [archive.assign_serialize] at hreplaced
    exact ⟨buckets, hbuckets, hlength, hreplaced⟩
  · cases h

def Network.afterFill (clients : Clients ι) (n : Network ι) (a : Address) (service : Service)
    (c : Controller) (position : ℕ) : Network ι :=
  n.set clients a service
    { n.processes (clients.ownerOf a) with
      task := if position + 1 < (n.oram clients a c).numBuckets then
        some (a, .filling (position + 1)) else none }
    { c with calls := c.calls ++ [.write position] }

def Network.afterEvict (clients : Clients ι) (n : Network ι) (a : Address) (service : Service)
    (c : Controller) (oldLeaf : ℕ) (answer : Str) (level : ℕ) : Network ι :=
  n.set clients a service
    { n.processes (clients.ownerOf a) with
      task := if 0 < level then some (a, .evicting oldLeaf answer level) else none }
    { c with
      stash := eraseEvicted (n.collected clients a c oldLeaf level).2.1 c.stash
      calls := c.calls ++ [.write ((n.oram clients a c).P oldLeaf level)] }

structure Sent (clients : Clients ι) (n : Network ι) (a : Address) (position : ℕ) (bucket : Bucket)
    (service : Service) : Prop where
  bucketsOf : ∀ b ≠ a, service.bucketsOf b = n.service.bucketsOf b
  bucket : ∀ p, ((service.bucketsOf a).getD [])[p]?.getD [] =
    Function.update (n.bucket a) position bucket p
  statics : service.statics = (n.processes (clients.ownerOf a)).statics

omit [DecidableEq ι] in
theorem send_sent {bucket : Bucket} {position : ℕ} (hs : clients.Serves a)
    (h : send clients archive n a position bucket = some service) :
    Sent clients n a position bucket service := by
  obtain ⟨buckets, hbuckets, hlength, hreplaced⟩ := send_ok hs h
  refine ⟨?_, ?_, hreplaced.statics⟩
  · intro b hb
    exact (hreplaced.bucketsOf b).trans (if_neg hb)
  · intro p
    rw [hreplaced.bucketsOf a, if_pos rfl, Option.getD_some]
    by_cases hp : p = position
    · rw [hp, List.getElem?_set_self hlength, Option.getD_some, Function.update_self]
    · rw [List.getElem?_set_ne (Ne.symm hp), Function.update_of_ne hp, Network.bucket, hbuckets,
        Option.getD_some]

theorem writeBucket_ok (ho : Ordered clients n)
    (h : writeBucket clients archive n i = some n') : ∃ a c service, clients.ownerOf a = i ∧
      n.controllers a = some c ∧
      ((∃ position, (n.processes i).task = some (a, .filling position) ∧
        Sent clients n a position
          (padBucket (n.oram clients a c).maxSize [] (n.oram clients a c).bucketSize) service ∧
        n' = n.afterFill clients a service c position) ∨
      ∃ oldLeaf answer level,
        (n.processes i).task = some (a, .evicting oldLeaf answer (level + 1)) ∧
        Sent clients n a ((n.oram clients a c).P oldLeaf level)
          (padBucket (n.oram clients a c).maxSize (n.collected clients a c oldLeaf level).1
            ((n.oram clients a c).bucketSize - (n.collected clients a c oldLeaf level).2.2))
            service ∧
        n' = n.afterEvict clients a service c oldLeaf answer level) := by
  dsimp only [writeBucket] at h
  split at h
  · rename_i a position htask
    split at h
    · cases h
    rename_i c hc
    split at h
    · cases h
    rename_i service hsend
    cases h
    have howner := ho.owner i a _ htask
    subst howner
    refine ⟨a, c, service, rfl, hc, Or.inl ⟨position, htask, ?_, rfl⟩⟩
    exact send_sent (ho.serves a c hc) hsend
  · rename_i a oldLeaf answer level htask
    split at h
    · cases h
    rename_i c hc
    split at h
    · cases h
    rename_i service hsend
    cases h
    have howner := ho.owner i a _ htask
    subst howner
    refine ⟨a, c, service, rfl, hc, Or.inr ⟨oldLeaf, answer, level, htask, ?_, rfl⟩⟩
    exact send_sent (ho.serves a c hc) hsend
  · cases h

end SharedService
