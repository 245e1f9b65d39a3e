import SseSeal.OramFailure
import SseSeal.SharedService

/-! Clients of one `SealService` under distinct map keys. Each controller is between its calls
where it would be alone, as long as no client reads while the server has the bucket size of
another in the static members of `Bucket`. -/
namespace ServiceIsolation

open Bytes Objects OramReadPathEviction StateExcept PathTree OramEviction OramAccess OramBlocks
open OramCalls OramMemory OramFailure BucketArchive SharedService
open ControllerIsolation (withGen holds_withGen construct_run leavesFor)
open SealService (Address Service Replaced)

variable {ι : Type}

section Statement

variable (clients : Clients ι) (codec : Codec Node)

def callsOf (a : Address) (events : List (Event ι)) : List Call :=
  events.foldl (fun calls e =>
    match e with
    | .construct b => if b = a then [] else calls
    | .access b call => if b = a then calls ++ [call] else calls
    | _ => calls) []

def memory (calls : List Call) : ℤ → Option Str := storeAll codec (fun _ => none) calls

def taskOf (n : Network ι) (a : Address) : Option Task :=
  match (n.processes (clients.ownerOf a)).task with
  | none => none
  | some (b, t) => if b = a then some t else none

def stored (calls : List Call) : Option Task → List Call
  | some (.reading _ _ _ _) => calls.dropLast
  | _ => calls

/-- What holds of the controller at an address, whatever the other clients do. -/
structure Undisturbed (events : List (Event ι)) (n : Network ι) (a : Address) (c : Controller) :
    Prop where
  own_size : (n.processes (clients.ownerOf a)).statics.maxSize =
    clients.bucketSize (clients.ownerOf a)
  /-- `addBlock` accepts every block that is taken from the stash. -/
  accepted : ∀ oldLeaf answer level,
    taskOf clients n a = some (.evicting oldLeaf answer (level + 1)) →
      (n.collected clients a c oldLeaf level).2.1 =
        (n.collected clients a c oldLeaf level).1.map Block.index
  /-- What was written is in the stash, or the server has it. -/
  kept : ∀ i data, memory codec (stored (callsOf a events) (taskOf clients n a)) i = some data →
    ∃ b : Block, b.index = i ∧ b.data = data ∧ (b ∈ c.stash ∨ ∃ position, b ∈ n.bucket a position)
  answered : ∀ oldLeaf answer levels, taskOf clients n a = some (.evicting oldLeaf answer levels) →
    ∃ before call, callsOf a events = before ++ [call] ∧ answer = reply (memory codec before) call

def writer : Event ι → Option ι
  | .writeBucket i => some i
  | _ => none

/-- The process whose `WriteBucket` the server served last. -/
def lastWriter (events : List (Event ι)) : Option ι := (events.filterMap writer).getLast?

/-- Whenever a bucket is read, the server was last written to by a process with the bucket size of
the reader. -/
def SameSizeReads (events : List (Event ι)) : Prop :=
  ∀ pre i, pre ++ [.readBucket i] <+: events →
    ∃ j, lastWriter pre = some j ∧ clients.bucketSize j = clients.bucketSize i

end Statement

variable {clients : Clients ι} {codec : Codec Node} {n n' : Network ι} {a b : Address}
  {c c' : Controller} {calls before : List Call} {call : Call} {o : Oram} {leaf level levels : ℕ}
  {randGen : RandomForOram}

def ownGen (o : Oram) : Oram := withGen ⟨o.numLeaves, fun _ => 0, 0⟩ o

def view (clients : Clients ι) (n : Network ι) (a : Address) (c : Controller) : Oram :=
  let o := ownGen (clients.blank a ⟨0, fun _ => 0, 0⟩)
  { o with
    positionMap := c.positionMap
    stash := c.stash
    storage := ⟨o.numBuckets, n.bucket a, c.calls, fun _ => false⟩ }

theorem oram_eq (h : (n.processes (clients.ownerOf a)).statics.maxSize =
    clients.bucketSize (clients.ownerOf a)) : n.oram clients a c =
      withGen (n.processes (clients.ownerOf a)).randGen (view clients n a c) := by
  have hsize : toUnsigned (clients.bucketSize (clients.ownerOf a)) =
      clients.bucketSize (clients.ownerOf a) := toUnsigned_natCast (clients.bucketSize_lt _)
  rw [Network.oram, h, hsize]
  rfl

theorem holds_ownGen {m : ℤ → Option Str} (h : Holds o m) : Holds (ownGen o) m :=
  holds_withGen (r := o.randGen) h rfl

structure Began (codec : Codec Node) (before : List Call) (call : Call) (o : Oram) : Prop where
  holds : Holds o (memory codec before)
  inRange : call.InRange

inductive Phase (clients : Clients ι) (codec : Codec Node) (a : Address) :
    List Call → Option Task → Oram → Prop where
  | idle {calls : List Call} {o : Oram} :
    Holds o (memory codec calls) → Phase clients codec a calls none o
  | filling (position : ℕ) (randGen : RandomForOram) :
      position < (clients.blank a randGen).numBuckets →
      Phase clients codec a [] (some (.filling position))
        (ownGen ((List.range position).foldl (fun o i => initStep i o) (clients.drawn a randGen)))
  | reading {before : List Call} {call : Call} {o : Oram} (level : ℕ) :
    Began codec before call o → level < o.numLevels →
      Phase clients codec a (before ++ [call])
        (some (.reading call (o.positionMap call.index) (call.newLeaf o) level))
        (ownGen (readPath (o.positionMap call.index) (List.range level) (call.prepare o)))
  | evicting {before : List Call} {call : Call} {o : Oram} (path : List ℕ) (level : ℕ) :
    Began codec before call o →
      (List.range o.numLevels).reverse = path ++ (List.range (level + 1)).reverse →
      Phase clients codec a (before ++ [call])
        (some (.evicting (o.positionMap call.index) (call.answer o) (level + 1)))
        (ownGen (evictPath (o.positionMap call.index) path
          (accessed call.op call.index (o.positionMap call.index) (call.newLeaf o)
            (call.data codec) (call.prepare o))))

theorem memory_concat :
    memory codec (before ++ [call]) = store codec (memory codec before) call := by
  rw [memory, storeAll, List.foldl_concat]
  rfl

theorem Phase.fill {position : ℕ} (h : Phase clients codec a calls (some (.filling position)) o)
    (hs : clients.Serves a) (randGen : RandomForOram) :
    Phase clients codec a calls
      (if position + 1 < (clients.blank a randGen).numBuckets then some (.filling (position + 1))
        else none) (initStep position o) := by
  cases h with
  | filling _ r hlt =>
    have hstep : initStep position (ownGen ((List.range position).foldl (fun o i => initStep i o)
        (clients.drawn a r))) = ownGen ((List.range (position + 1)).foldl
          (fun o i => initStep i o) (clients.drawn a r)) := by
      rw [List.range_succ, List.foldl_concat]
      rfl
    rw [hstep]
    split
    · rename_i hnext
      exact .filling (position + 1) r hnext
    · rename_i hlast
      have hall : position + 1 = (clients.blank a r).numBuckets := by
        have hsame : (clients.blank a randGen).numBuckets = (clients.blank a r).numBuckets := rfl
        omega
      rw [hall]
      exact .idle (holds_ownGen (holds_construct (construct_run hs.constructible r)))

theorem ownGen_prepare : ownGen (call.prepare o) =
    { ownGen o with positionMap := (call.prepare o).positionMap } := by
  cases call with
  | access op i data => rfl
  | direct op node =>
    simp only [Call.prepare]
    split <;> rfl

theorem Phase.begin (h : Phase clients codec a calls none o) (hgen : randGen.bound = o.numLeaves)
    (hcall : call.InRange) :
    Phase clients codec a (calls ++ [call])
      (some (.reading call (o.positionMap call.index) (call.newLeaf (withGen randGen o)) 0))
      (ownGen (call.prepare (withGen randGen o))) := by
  cases h with
  | idle hholds =>
    have hbegan : Began codec calls call (withGen randGen o) :=
      ⟨holds_withGen (r := o.randGen) hholds hgen, hcall⟩
    exact .reading 0 hbegan hbegan.holds.wellFormed.levels_pos

theorem Phase.read {newLeaf : ℤ}
    (h : Phase clients codec a calls (some (.reading call leaf newLeaf level)) o) :
    Phase clients codec a calls
      (some (afterRead codec o.numLevels call leaf newLeaf level (readStep leaf level o).stash).1)
      { readStep leaf level o with
        stash := (afterRead codec o.numLevels call leaf newLeaf level
          (readStep leaf level o).stash).2 } := by
  cases h with
  | @reading before _ o₀ _ hbegan hlt =>
    have hlevels : (ownGen (readPath (o₀.positionMap call.index) (List.range level)
        (call.prepare o₀))).numLevels = o₀.numLevels :=
      (readPath_frame (o := call.prepare o₀)).numLevels.trans Call.prepare_numLevels
    have hstep : readStep (o₀.positionMap call.index) level (ownGen (readPath
        (o₀.positionMap call.index) (List.range level) (call.prepare o₀))) =
        ownGen (readPath (o₀.positionMap call.index) (List.range (level + 1))
          (call.prepare o₀)) := by
      rw [List.range_succ, readPath_concat]
      rfl
    rw [hlevels, hstep, afterRead]
    split
    · rename_i hnext
      exact .reading (level + 1) hbegan hnext
    · rename_i hlast
      have hall : level + 1 = o₀.numLevels := by omega
      have hpath : readPath (o₀.positionMap call.index) (List.range (level + 1))
          (call.prepare o₀) = opened (o₀.positionMap call.index) (call.prepare o₀) := by
        rw [opened, Call.prepare_numLevels, hall]
      rw [hpath, ← hall]
      exact .evicting [] level hbegan (by rw [hall]; rfl)

theorem Phase.evict {answer : Str}
    (h : Phase clients codec a calls (some (.evicting leaf answer (level + 1))) o) :
    Phase clients codec a calls
      (if 0 < level then some (.evicting leaf answer level) else none)
      (evictStep leaf level o) := by
  cases h with
  | @evicting before call o₀ path _ hbegan hpath =>
    have hstep : evictStep (o₀.positionMap call.index) level (ownGen (evictPath
        (o₀.positionMap call.index) path (accessed call.op call.index
          (o₀.positionMap call.index) (call.newLeaf o₀) (call.data codec) (call.prepare o₀)))) =
        ownGen (evictPath (o₀.positionMap call.index) (path ++ [level]) (accessed call.op
          call.index (o₀.positionMap call.index) (call.newLeaf o₀) (call.data codec)
            (call.prepare o₀))) := by
      rw [evictPath_concat]
      rfl
    rw [List.range_succ, List.reverse_append, List.reverse_singleton,
      ← List.append_assoc] at hpath
    rw [hstep]
    cases level with
    | zero =>
      have hall : path ++ [0] = (List.range (call.prepare o₀).numLevels).reverse := by
        rw [Call.prepare_numLevels, hpath]
        simp
      have hnext := (holds_next hbegan.holds hbegan.inRange codec).1
      rw [if_neg (lt_irrefl 0), hall, ← handled, ← Call.next]
      rw [← memory_concat] at hnext
      exact .idle (holds_ownGen hnext)
    | succ level =>
      rw [if_pos (Nat.succ_pos _)]
      exact .evicting (path ++ [level + 1]) level hbegan hpath

theorem holds_mem {m : ℤ → Option Str} {i : ℤ} {data : Str} (h : Holds o m) (hm : m i = some data) :
    ∃ b ∈ held o, b.index = i ∧ b.data = data := by
  obtain ⟨b, hb, hi⟩ := h.blocks.present i data hm
  have hvalue := h.blocks.value b hb
  rw [hi, hm, Option.some.injEq] at hvalue
  exact ⟨b, hb, hi, hvalue.symm⟩

theorem mem_held_readPath {block : Block} {path : List ℕ} (hb : block ∈ held o) :
    block ∈ held (readPath leaf path o) := by
  rw [mem_held, readPath_buckets, readPath_frame.numBuckets]
  rcases mem_held.mp hb with hb | hb
  · exact Or.inl (mem_readPath_stash.mpr (Or.inl hb))
  · exact Or.inr hb

/-- Every block that is held when an access ends is held from the eviction's beginning on. -/
theorem mem_held_of_handled {op : Operation} {i : ℕ} {newLeaf : ℤ} {data : Str} {block : Block}
    {path : List ℕ} (hw : WellFormed o) (hleaf : leaf < o.numLeaves) (hi : i < 2 ^ 31)
    (hpath : (List.range o.numLevels).reverse = path ++ (List.range (level + 1)).reverse)
    (hb : block ∈ held (handled op i leaf newLeaf data o)) :
    block ∈ held (evictPath leaf path (accessed op i leaf newLeaf data o)) := by
  rw [List.range_succ, List.reverse_append, List.reverse_singleton, List.singleton_append] at hpath
  rw [mem_held_evicting hw hleaf hi hpath]
  rw [held_handled hw hleaf hi, toInt_of_lt hi] at hb
  rcases Multiset.mem_add.mp hb with hb | hb
  · exact Or.inl hb
  · obtain ⟨p, hp, hb⟩ := Multiset.mem_sum.mp hb
    rw [Finset.mem_sdiff, Finset.mem_range, ← map_range_P, List.mem_toFinset] at hp
    refine Or.inr ⟨p, hp.1, ?_, hb⟩
    intro hin
    obtain ⟨l, hl, rfl⟩ := List.mem_map.mp hin
    apply hp.2
    apply List.mem_map_of_mem
    rw [← List.mem_reverse, hpath]
    exact List.mem_append_left _ hl

theorem Phase.kept {task : Option Task} {i : ℤ} {data : Str}
    (h : Phase clients codec a calls task o) (hm : memory codec (stored calls task) i = some data) :
    ∃ b ∈ held o, b.index = i ∧ b.data = data := by
  cases h with
  | idle hholds => exact holds_mem hholds hm
  | filling position r hlt => cases hm
  | @reading before call o₀ level hbegan hlt =>
    rw [stored, List.dropLast_concat] at hm
    obtain ⟨b, hb, hbi⟩ := holds_mem hbegan.holds hm
    rw [← Call.held_prepare (c := call)] at hb
    exact ⟨b, mem_held_readPath hb, hbi⟩
  | @evicting before call o₀ path level hbegan hpath =>
    rw [stored, memory_concat] at hm
    · obtain ⟨b, hb, hbi⟩ := holds_mem (holds_next hbegan.holds hbegan.inRange codec).1 hm
      have hw := hbegan.holds.wellFormed
      have hleaf : o₀.positionMap call.index < (call.prepare o₀).numLeaves := by
        rw [Call.prepare_numLeaves]
        exact hw.positions_lt _
      rw [← Call.prepare_numLevels (c := call)] at hpath
      exact ⟨b, mem_held_of_handled (Call.prepare_wellFormed hw) hleaf
        (Call.index_lt hbegan.inRange) hpath hb, hbi⟩
    · intro _ _ _ _ heq
      cases heq

theorem Phase.answered {answer : Str}
    (h : Phase clients codec a calls (some (.evicting leaf answer levels)) o) :
    ∃ before call, calls = before ++ [call] ∧ answer = reply (memory codec before) call := by
  cases h with
  | @evicting before call o₀ path level hbegan hpath =>
    exact ⟨before, call, rfl, (holds_next hbegan.holds hbegan.inRange codec).2⟩

section Step

variable [DecidableEq ι] {archive : Archive} {events : List (Event ι)} {e : Event ι} {i : ι}
  {service : Service} {p : Process}

def TaskAt (p : Process) (a : Address) : Prop := ∀ b t, p.task = some (b, t) → b = a

theorem taskAt_none (h : p.task = none) : TaskAt p a := by
  intro b t ht
  rw [h] at ht
  cases ht

theorem taskAt_some {t : Task} (h : p.task = some (a, t)) : TaskAt p a := by
  intro b t' ht
  rw [h] at ht
  cases ht
  rfl

theorem taskAt_ite {q : Prop} [Decidable q] {t : Task}
    (h : p.task = if q then some (a, t) else none) : TaskAt p a := by
  split at h
  · exact taskAt_some h
  · exact taskAt_none h

omit [DecidableEq ι] in
theorem taskOf_of_taskAt (h : TaskAt (n.processes (clients.ownerOf b)) a) (hb : b ≠ a) :
    taskOf clients n b = none := by
  rw [taskOf]
  cases htask : (n.processes (clients.ownerOf b)).task with
  | none => rfl
  | some at' =>
    obtain ⟨d, t⟩ := at'
    have hd := h d t htask
    subst hd
    exact if_neg (Ne.symm hb)

theorem set_processes_self :
    (n.set clients a service p c).processes (clients.ownerOf a) = p := Function.update_self ..

theorem set_processes_of_ne (h : i ≠ clients.ownerOf a) :
    (n.set clients a service p c).processes i = n.processes i := Function.update_of_ne h ..

theorem set_controllers_self : (n.set clients a service p c).controllers a = some c :=
  Function.update_self ..

theorem set_controllers_of_ne (h : b ≠ a) :
    (n.set clients a service p c).controllers b = n.controllers b := Function.update_of_ne h ..

theorem taskOf_set_of_ne (hold : TaskAt (n.processes (clients.ownerOf a)) a) (hnew : TaskAt p a)
    (hb : b ≠ a) : taskOf clients (n.set clients a service p c) b = taskOf clients n b := by
  by_cases howner : clients.ownerOf b = clients.ownerOf a
  · rw [taskOf_of_taskAt (a := a) _ hb, taskOf_of_taskAt (a := a) _ hb]
    · rw [howner]
      exact hold
    · rw [howner, set_processes_self]
      exact hnew
  · rw [taskOf, taskOf, set_processes_of_ne howner]

theorem taskOf_set_self : taskOf clients (n.set clients a service p c) a =
    match p.task with
    | none => none
    | some (b, t) => if b = a then some t else none := by
  rw [taskOf, set_processes_self]

theorem view_set_of_ne (hother : service.bucketsOf b = n.service.bucketsOf b) :
    view clients (n.set clients a service p c') b c = view clients n b c := by
  have hbucket : (n.set clients a service p c').bucket b = n.bucket b := by
    funext position
    rw [Network.bucket, Network.bucket, ← hother]
    rfl
  rw [view, view, hbucket]

theorem ordered_set (h : Ordered clients n) (hs : clients.Serves a) (hnew : TaskAt p a) :
    Ordered clients (n.set clients a service p c) := by
  constructor
  · intro i b t ht
    by_cases hi : i = clients.ownerOf a
    · subst hi
      rw [set_processes_self] at ht
      rw [hnew b t ht]
    · rw [set_processes_of_ne hi] at ht
      exact h.owner i b t ht
  · intro b d hd
    by_cases hb : b = a
    · rw [hb]
      exact hs
    · rw [set_controllers_of_ne hb] at hd
      exact h.serves b d hd

/-- What is kept as long as every read finds the bucket size of the reader. -/
structure Inv (clients : Clients ι) (codec : Codec Node) (events : List (Event ι))
    (n : Network ι) : Prop where
  ordered : Ordered clients n
  own : ∀ i, (n.processes i).statics.isInit →
    (n.processes i).statics.maxSize = clients.bucketSize i
  made : ∀ a c, n.controllers a = some c →
    (n.processes (clients.ownerOf a)).statics.isInit ∧
      (n.processes (clients.ownerOf a)).randGen.bound =
        leavesFor (clients.blockNumber (clients.ownerOf a))
  server : ∀ i, lastWriter events = some i → n.service.statics = ⟨true, clients.bucketSize i⟩
  phases : ∀ a c, n.controllers a = some c →
    Phase clients codec a (callsOf a events) (taskOf clients n a) (view clients n a c)

theorem Inv.set (h : Inv clients codec events n) (hserves : clients.Serves a)
    (hold : TaskAt (n.processes (clients.ownerOf a)) a) (hnew : TaskAt p a)
    (hstatics : p.statics = ⟨true, clients.bucketSize (clients.ownerOf a)⟩)
    (hbound : p.randGen.bound = leavesFor (clients.blockNumber (clients.ownerOf a)))
    (hother : ∀ b ≠ a, service.bucketsOf b = n.service.bucketsOf b)
    (hserver : ∀ i, lastWriter (events ++ [e]) = some i →
      service.statics = ⟨true, clients.bucketSize i⟩)
    (hcalls : ∀ b ≠ a, callsOf b (events ++ [e]) = callsOf b events)
    (hphase : Phase clients codec a (callsOf a (events ++ [e]))
      (taskOf clients (n.set clients a service p c) a)
      (view clients (n.set clients a service p c) a c)) :
    Inv clients codec (events ++ [e]) (n.set clients a service p c) := by
  have hcontroller : ∀ b d, (n.set clients a service p c).controllers b = some d →
      b ≠ a → n.controllers b = some d := by
    intro b d hd hb
    rwa [set_controllers_of_ne hb] at hd
  have hself : ∀ d, (n.set clients a service p c).controllers a = some d → d = c := by
    intro d hd
    rw [set_controllers_self, Option.some.injEq] at hd
    exact hd.symm
  refine ⟨ordered_set h.ordered hserves hnew, ?_, ?_, hserver, ?_⟩
  · intro i hinit
    by_cases hi : i = clients.ownerOf a
    · subst hi
      rw [set_processes_self, hstatics]
    · rw [set_processes_of_ne hi] at hinit ⊢
      exact h.own i hinit
  · intro b d hd
    by_cases howner : clients.ownerOf b = clients.ownerOf a
    · rw [howner, set_processes_self, hstatics]
      exact ⟨rfl, hbound⟩
    · have hb : b ≠ a := fun heq => howner (heq ▸ rfl)
      rw [set_processes_of_ne howner]
      exact h.made b d (hcontroller b d hd hb)
  · intro b d hd
    by_cases hb : b = a
    · subst hb
      rw [hself d hd]
      exact hphase
    · rw [hcalls b hb, taskOf_set_of_ne hold hnew hb, view_set_of_ne (hother b hb)]
      exact h.phases b d (hcontroller b d hd hb)

omit [DecidableEq ι] in
theorem callsOf_concat : callsOf a (events ++ [e]) =
    match e with
    | .construct b => if b = a then [] else callsOf a events
    | .access b call => if b = a then callsOf a events ++ [call] else callsOf a events
    | _ => callsOf a events := by
  rw [callsOf, List.foldl_concat]
  rfl

omit [DecidableEq ι] in
theorem lastWriter_concat : lastWriter (events ++ [e]) = (writer e).or (lastWriter events) := by
  rw [lastWriter, List.filterMap_append]
  cases h : writer e with
  | none => simp [lastWriter, h]
  | some i => simp [h]

theorem taskOf_set_some {t : Task} (h : p.task = some (a, t)) :
    taskOf clients (n.set clients a service p c) a = some t := by
  rw [taskOf_set_self, h]
  exact if_pos rfl

theorem taskOf_set_none (h : p.task = none) :
    taskOf clients (n.set clients a service p c) a = none := by
  rw [taskOf_set_self, h]

theorem taskOf_set_ite {q : Prop} [Decidable q] {t : Task}
    (h : p.task = if q then some (a, t) else none) :
    taskOf clients (n.set clients a service p c) a = if q then some t else none := by
  split at h
  · rename_i hq
    rw [taskOf_set_some h, if_pos hq]
  · rename_i hq
    rw [taskOf_set_none h, if_neg hq]

omit [DecidableEq ι] in
theorem taskOf_some {t : Task} (h : (n.processes (clients.ownerOf a)).task = some (a, t)) :
    taskOf clients n a = some t := by
  rw [taskOf, h]
  exact if_pos rfl

omit [DecidableEq ι] in
theorem drawn_eq (a : Address) (r : RandomForOram) : (clients.drawn a r).randGen.bound =
    leavesFor (clients.blockNumber (clients.ownerOf a)) := by
  rw [Clients.drawn, drawSteps]
  rfl

theorem Inv.construct (h : Inv clients codec events n)
    (hn : SharedService.construct clients n a = some n') :
    Inv clients codec (events ++ [.construct a]) n' := by
  obtain ⟨service, hc, rfl⟩ := construct_ok hn
  refine h.set hc.serves (taskAt_none hc.idle) (taskAt_some rfl) rfl (drawn_eq a _) ?_ ?_ ?_ ?_
  · intro b hb
    exact (hc.replaced.bucketsOf b).trans (if_neg hb)
  · intro i hi
    rw [lastWriter_concat] at hi
    rw [hc.replaced.statics]
    exact h.server i hi
  · intro b hb
    rw [callsOf_concat]
    exact if_neg (Ne.symm hb)
  · have hbucket : ∀ p c, (n.set clients a service p c).bucket a = fun _ => [] := by
      intro p c
      funext position
      change ((service.bucketsOf a).getD [])[position]?.getD [] = []
      rw [hc.replaced.bucketsOf a, if_pos rfl, Option.getD_some, List.getElem?_replicate]
      split <;> rfl
    have hview : ∀ p, view clients (n.set clients a service p
        ⟨(clients.drawn a (n.processes (clients.ownerOf a)).randGen).positionMap, [], []⟩) a
        ⟨(clients.drawn a (n.processes (clients.ownerOf a)).randGen).positionMap, [], []⟩ =
          ownGen (clients.drawn a (n.processes (clients.ownerOf a)).randGen) := by
      intro p
      rw [view, hbucket, Clients.drawn, drawSteps]
      rfl
    have hpos : 0 < (clients.blank a (n.processes (clients.ownerOf a)).randGen).numBuckets :=
      Nat.sub_pos_of_lt (Nat.one_lt_two_pow (Nat.succ_ne_zero _))
    rw [callsOf_concat, taskOf_set_some rfl, hview]
    simp only [if_true]
    exact .filling 0 _ hpos

omit [DecidableEq ι] in
theorem Inv.statics (h : Inv clients codec events n) (hc : n.controllers a = some c) :
    (n.processes (clients.ownerOf a)).statics =
      ⟨true, clients.bucketSize (clients.ownerOf a)⟩ := by
  have hinit := (h.made a c hc).1
  have hown := h.own _ hinit
  generalize (n.processes (clients.ownerOf a)).statics = statics at hinit hown
  obtain ⟨isInit, maxSize⟩ := statics
  simp_all

omit [DecidableEq ι] in
theorem Inv.oram (h : Inv clients codec events n) (hc : n.controllers a = some c) :
    n.oram clients a c = withGen (n.processes (clients.ownerOf a)).randGen (view clients n a c) :=
  oram_eq (congrArg Statics.maxSize (h.statics hc))

omit [DecidableEq ι] in
theorem Inv.collected (h : Inv clients codec events n) (hc : n.controllers a = some c)
    (oldLeaf level : ℕ) : n.collected clients a c oldLeaf level =
      (evicted oldLeaf level (view clients n a c),
        (evicted oldLeaf level (view clients n a c)).map Block.index,
        (evicted oldLeaf level (view clients n a c)).length) := by
  rw [Network.collected, h.oram hc]
  exact collect_evicted oldLeaf level (view clients n a c)

theorem prepare_bound : (call.prepare o).randGen.bound = o.randGen.bound := by
  cases call with
  | access op i data => rfl
  | direct op node =>
    simp only [Call.prepare]
    split <;> rfl

theorem Inv.access (h : Inv clients codec events n) (hcall : call.InRange)
    (hn : SharedService.access clients n a call = some n') :
    Inv clients codec (events ++ [.access a call]) n' := by
  obtain ⟨c, hc, hidle, rfl⟩ := access_ok hn
  have hbound := (h.made a c hc).2
  refine h.set (h.ordered.serves a c hc) (taskAt_none hidle) (taskAt_some rfl) (h.statics hc)
    ?_ ?_ ?_ ?_ ?_
  · exact prepare_bound.trans hbound
  · intro b _
    rfl
  · intro i hi
    rw [lastWriter_concat] at hi
    exact h.server i hi
  · intro b hb
    rw [callsOf_concat]
    exact if_neg (Ne.symm hb)
  · have hphase := h.phases a c hc
    have htask : taskOf clients n a = none := by rw [taskOf, hidle]
    rw [htask] at hphase
    have hbegin := hphase.begin hbound hcall
    rw [callsOf_concat, taskOf_set_some rfl, h.oram hc]
    simp only [if_true]
    rw [ownGen_prepare] at hbegin
    exact hbegin

theorem Inv.readBucket (h : Inv clients codec events n)
    (hsame : ∃ j, lastWriter events = some j ∧ clients.bucketSize j = clients.bucketSize i)
    (hn : SharedService.readBucket clients codec archive n i = some n') :
    Inv clients codec (events ++ [.readBucket i]) n' := by
  obtain ⟨a, call, oldLeaf, newLeaf, level, c, rfl, htask, hc, rfl⟩ := readBucket_ok h.ordered hn
  obtain ⟨j, hj, hsize⟩ := hsame
  refine h.set (h.ordered.serves a c hc) (taskAt_some htask) (taskAt_some rfl) ?_
    (h.made a c hc).2 ?_ ?_ ?_ ?_
  · rw [← hsize]
    exact h.server j hj
  · intro b _
    rfl
  · intro i hi
    rw [lastWriter_concat] at hi
    exact h.server i hi
  · intro b _
    exact callsOf_concat
  · have hphase := h.phases a c hc
    rw [taskOf_some htask] at hphase
    have hread := hphase.read
    rw [callsOf_concat, taskOf_set_some rfl, h.oram hc]
    exact hread

theorem Inv.writeBucket (h : Inv clients codec events n)
    (hn : SharedService.writeBucket clients archive n i = some n') :
    Inv clients codec (events ++ [.writeBucket i]) n' := by
  obtain ⟨a, c, service, rfl, hc, hcases⟩ := writeBucket_ok h.ordered hn
  have hphase := h.phases a c hc
  have hserver : ∀ {position bucket}, Sent clients n a position bucket service →
      ∀ i, lastWriter (events ++ [.writeBucket (clients.ownerOf a)]) = some i →
        service.statics = ⟨true, clients.bucketSize i⟩ := by
    intro position bucket hsent i hi
    rw [lastWriter_concat] at hi
    cases hi
    rw [hsent.statics, h.statics hc]
  rcases hcases with ⟨position, htask, hsent, rfl⟩ | ⟨oldLeaf, answer, level, htask, hsent, rfl⟩
  · rw [taskOf_some htask] at hphase
    have hfill := hphase.fill (h.ordered.serves a c hc) (n.processes (clients.ownerOf a)).randGen
    refine h.set (h.ordered.serves a c hc) (taskAt_some htask) (taskAt_ite rfl) (h.statics hc)
      (h.made a c hc).2 hsent.bucketsOf (hserver hsent) (fun b _ => callsOf_concat) ?_
    have hbucket : ∀ p d, (n.set clients a service p d).bucket a = Function.update (n.bucket a)
        position (padBucket (view clients n a c).maxSize [] (view clients n a c).bucketSize) := by
      intro p d
      rw [h.oram hc] at hsent
      exact funext hsent.bucket
    rw [callsOf_concat, taskOf_set_ite rfl, view, hbucket]
    exact hfill
  · rw [taskOf_some htask] at hphase
    have hevict := hphase.evict
    refine h.set (h.ordered.serves a c hc) (taskAt_some htask) (taskAt_ite rfl) (h.statics hc)
      (h.made a c hc).2 hsent.bucketsOf (hserver hsent) (fun b _ => callsOf_concat) ?_
    have hcollected := h.collected hc oldLeaf level
    have hbucket : ∀ p d, (n.set clients a service p d).bucket a = Function.update (n.bucket a)
        ((view clients n a c).P oldLeaf level) (fullBucket oldLeaf level (view clients n a c)) := by
      intro p d
      rw [hcollected, h.oram hc] at hsent
      rw [← padBucket_evicted]
      exact funext hsent.bucket
    rw [callsOf_concat, taskOf_set_ite rfl, view, hbucket, hcollected, h.oram hc]
    exact hevict

end Step

section Runs

variable [DecidableEq ι] {archive : Archive} {events pre : List (Event ι)} {e : Event ι} {i : ι}
  {rng : ι → ℕ → ℤ}

theorem run_append (n : Network ι) (events later : List (Event ι)) :
    run clients codec archive n (events ++ later) =
      (run clients codec archive n events).bind fun m => run clients codec archive m later := by
  induction events generalizing n with
  | nil => rfl
  | cons e events ih =>
    rw [List.cons_append, run, run]
    cases next clients codec archive n e with
    | none => rfl
    | some m => exact ih m

theorem run_concat_some (h : run clients codec archive n (events ++ [e]) = some n') :
    ∃ m, run clients codec archive n events = some m ∧
      next clients codec archive m e = some n' := by
  rw [run_append] at h
  obtain ⟨m, hm, h⟩ := Option.bind_eq_some_iff.mp h
  rw [run] at h
  cases hnext : next clients codec archive m e with
  | none =>
    rw [hnext] at h
    cases h
  | some u =>
    rw [hnext] at h
    cases h
    exact ⟨m, hm, hnext⟩

theorem run_prefix (hpre : pre <+: events) (h : run clients codec archive n events = some n') :
    ∃ m, run clients codec archive n pre = some m := by
  obtain ⟨later, rfl⟩ := hpre
  rw [run_append] at h
  obtain ⟨m, hm, _⟩ := Option.bind_eq_some_iff.mp h
  exact ⟨m, hm⟩

omit [DecidableEq ι] in
theorem inv_initial : Inv clients codec [] (.initial rng) := by
  refine ⟨⟨?_, ?_⟩, ?_, ?_, ?_, ?_⟩
  · intro i a t h
    cases h
  · intro a c h
    cases h
  · intro i h
    cases h
  · intro a c h
    cases h
  · intro i h
    cases h
  · intro a c h
    cases h

theorem Inv.next (h : Inv clients codec events n)
    (hcall : ∀ a call, e = .access a call → call.InRange)
    (hsame : ∀ i, e = .readBucket i →
      ∃ j, lastWriter events = some j ∧ clients.bucketSize j = clients.bucketSize i)
    (hn : SharedService.next clients codec archive n e = some n') :
    Inv clients codec (events ++ [e]) n' := by
  cases e with
  | construct a => exact h.construct hn
  | access a call => exact h.access (hcall a call rfl) hn
  | readBucket i => exact h.readBucket (hsame i rfl) hn
  | writeBucket i => exact h.writeBucket hn

theorem inv_run (hcalls : ∀ a call, .access a call ∈ events → call.InRange)
    (hsame : SameSizeReads clients events) (hpre : pre <+: events)
    (hrun : run clients codec archive (.initial rng) pre = some n) :
    Inv clients codec pre n := by
  induction pre using List.reverseRecOn generalizing n with
  | nil =>
    cases hrun
    exact inv_initial
  | append_singleton pre e ih =>
    obtain ⟨m, hm, hnext⟩ := run_concat_some hrun
    refine (ih ((List.prefix_append _ _).trans hpre) hm).next ?_ ?_ hnext
    · intro a call he
      subst he
      exact hcalls a call (hpre.subset (by simp))
    · intro i he
      subst he
      exact hsame pre i hpre

omit [DecidableEq ι] in
theorem Inv.undisturbed (h : Inv clients codec events n) (hc : n.controllers a = some c) :
    Undisturbed clients codec events n a c := by
  have hphase := h.phases a c hc
  refine ⟨h.own _ (h.made a c hc).1, ?_, ?_, ?_⟩
  · intro oldLeaf answer level _
    rw [h.collected hc]
  · intro i data hm
    obtain ⟨b, hb, hi, hdata⟩ := hphase.kept hm
    refine ⟨b, hi, hdata, ?_⟩
    rcases mem_held.mp hb with hb | ⟨position, _, hb⟩
    · exact Or.inl hb
    · exact Or.inr ⟨position, (List.mem_filter.mp hb).1⟩
  · intro oldLeaf answer levels htask
    rw [htask] at hphase
    exact hphase.answered

structure Served (clients : Clients ι) (events : List (Event ι)) (n : Network ι) : Prop where
  ordered : Ordered clients n
  max_size : n.service.statics.maxSize =
    ((lastWriter events).map fun j => (clients.bucketSize j : ℤ)).getD (-1)

theorem Served.next (h : Served clients events n)
    (hown : ∀ a c, n.controllers a = some c →
      (n.processes (clients.ownerOf a)).statics.maxSize = clients.bucketSize (clients.ownerOf a))
    (hn : SharedService.next clients codec archive n e = some n') :
    Served clients (events ++ [e]) n' := by
  cases e with
  | construct a =>
    obtain ⟨service, hc, rfl⟩ := construct_ok hn
    refine ⟨ordered_set h.ordered hc.serves (taskAt_some rfl), ?_⟩
    rw [lastWriter_concat]
    exact (congrArg Statics.maxSize hc.replaced.statics).trans h.max_size
  | access a call =>
    obtain ⟨c, hc, _, rfl⟩ := access_ok hn
    refine ⟨ordered_set h.ordered (h.ordered.serves a c hc) (taskAt_some rfl), ?_⟩
    rw [lastWriter_concat]
    exact h.max_size
  | readBucket i =>
    obtain ⟨a, call, oldLeaf, newLeaf, level, c, _, _, hc, rfl⟩ := readBucket_ok h.ordered hn
    refine ⟨ordered_set h.ordered (h.ordered.serves a c hc) (taskAt_some rfl), ?_⟩
    rw [lastWriter_concat]
    exact h.max_size
  | writeBucket i =>
    obtain ⟨a, c, service, rfl, hc, hcases⟩ := writeBucket_ok h.ordered hn
    have hserves := h.ordered.serves a c hc
    rcases hcases with ⟨position, _, hsent, rfl⟩ | ⟨oldLeaf, answer, level, _, hsent, rfl⟩
    · refine ⟨ordered_set h.ordered hserves (taskAt_ite rfl), ?_⟩
      rw [lastWriter_concat]
      exact (congrArg Statics.maxSize hsent.statics).trans (hown a c hc)
    · refine ⟨ordered_set h.ordered hserves (taskAt_ite rfl), ?_⟩
      rw [lastWriter_concat]
      exact (congrArg Statics.maxSize hsent.statics).trans (hown a c hc)

theorem served_run (hown : ∀ pre m, pre <+: events →
      run clients codec archive (.initial rng) pre = some m → ∀ a c, m.controllers a = some c →
        (m.processes (clients.ownerOf a)).statics.maxSize = clients.bucketSize (clients.ownerOf a))
    (hpre : pre <+: events) (hrun : run clients codec archive (.initial rng) pre = some n) :
    Served clients pre n := by
  induction pre using List.reverseRecOn generalizing n with
  | nil =>
    cases hrun
    have hinv : Inv clients codec [] (.initial rng) := inv_initial
    exact ⟨hinv.ordered, rfl⟩
  | append_singleton pre e ih =>
    obtain ⟨m, hm, hnext⟩ := run_concat_some hrun
    have hinitial := (List.prefix_append _ _).trans hpre
    exact (ih hinitial hm).next (hown pre m hinitial hm) hnext

/-- Clients of one service are undisturbed by each other if and only if none reads while the
server was last written to by one with another bucket size. -/
theorem undisturbed_iff (hrun : run clients codec archive (.initial rng) events = some n)
    (hcalls : ∀ a call, .access a call ∈ events → call.InRange) :
    (∀ pre m, pre <+: events → run clients codec archive (.initial rng) pre = some m →
      ∀ a c, m.controllers a = some c → Undisturbed clients codec pre m a c) ↔
        SameSizeReads clients events := by
  constructor
  · intro hundisturbed pre i hpre
    have hown := fun pre m hp hm a c hc => (hundisturbed pre m hp hm a c hc).own_size
    obtain ⟨m', hm'⟩ := run_prefix hpre hrun
    obtain ⟨m, hm, hnext⟩ := run_concat_some hm'
    have hserved := served_run hown ((List.prefix_append _ _).trans hpre) hm
    obtain ⟨a, call, oldLeaf, newLeaf, level, c, rfl, _, _, rfl⟩ :=
      readBucket_ok hserved.ordered hnext
    have hsize := hown _ _ hpre hm' a _ set_controllers_self
    rw [Network.afterRead, set_processes_self] at hsize
    have heq := hserved.max_size.symm.trans hsize
    cases hlast : lastWriter pre with
    | none =>
      rw [hlast] at heq
      simp only [Option.map_none, Option.getD_none] at heq
      omega
    | some j =>
      rw [hlast] at heq
      exact ⟨j, rfl, Int.ofNat_inj.mp heq⟩
  · intro hsame pre m hpre hm a c hc
    exact (inv_run hcalls hsame hpre hm).undisturbed hc

end Runs

def twoClients : Clients Bool where
  owner key := key == [98]
  bucketSize i := if i then 1 else 2
  blockNumber i := if i then 1 else 2
  bucketSize_lt i := by cases i <;> decide

def ownRun : List (Event Bool) :=
  [.construct (.odict [97]), .writeBucket false, .writeBucket false, .writeBucket false,
    .access (.odict [97]) (.access .write 0 [7]), .readBucket false, .readBucket false,
    .writeBucket false, .writeBucket false]

def disturbedRun : List (Event Bool) := ownRun ++
  [.access (.odict [97]) (.access .write 1 [8]), .readBucket false, .readBucket false,
    .writeBucket false, .writeBucket false, .construct (.odict [98]), .writeBucket true,
    .access (.odict [97]) (.access .read 0 []), .readBucket false, .readBucket false,
    .writeBucket false, .writeBucket false]

theorem disturbedRun_inRange (a : Address) (call : Call) (h : .access a call ∈ disturbedRun) :
    call.InRange := by
  simp [disturbedRun, ownRun] at h
  rcases h with h | h | h <;> (rw [h.2]; simp [Call.InRange])

theorem prefix_concat {α : Type} {pre l : List α} {e : α} (h : pre ++ [e] <+: l) :
    pre = l.take pre.length ∧ l[pre.length]? = some e := by
  obtain ⟨later, rfl⟩ := h
  simp

theorem undisturbed_iff_own : ∃ n, run twoClients ObjectArchive.nodeCodec cereal
      (.initial fun _ _ => 0) (ownRun ++ [.construct (.odict [98]), .writeBucket true]) = some n ∧
    ∀ pre m, pre <+: ownRun ++ [.construct (.odict [98]), .writeBucket true] →
      run twoClients ObjectArchive.nodeCodec cereal (.initial fun _ _ => 0) pre = some m →
        ∀ a c, m.controllers a = some c →
          Undisturbed twoClients ObjectArchive.nodeCodec pre m a c := by
  have hsome : (run twoClients ObjectArchive.nodeCodec cereal (.initial fun _ _ => 0)
      (ownRun ++ [.construct (.odict [98]), .writeBucket true])).isSome = true := by
    decide +kernel
  obtain ⟨n, hn⟩ := Option.isSome_iff_exists.mp hsome
  refine ⟨n, hn, (undisturbed_iff hn ?_).mpr ?_⟩
  · intro a call hmem
    exact disturbedRun_inRange a call (List.mem_append_left _ (by simpa [ownRun] using hmem))
  · intro pre i hpre
    obtain ⟨htake, hread⟩ := prefix_concat hpre
    generalize pre.length = k at htake hread
    subst htake
    rcases k with _ | _ | _ | _ | _ | _ | _ | _ | _ | _ | _ | k <;> simp [ownRun] at hread
    · exact ⟨false, rfl, congrArg twoClients.bucketSize hread.symm⟩
    · exact ⟨false, rfl, congrArg twoClients.bucketSize hread.symm⟩

/-- The first client loses the data at its second address. -/
theorem block_lost : ∃ n c, run twoClients ObjectArchive.nodeCodec cereal
      (.initial fun _ _ => 0) disturbedRun = some n ∧
    (∀ a call, .access a call ∈ disturbedRun → call.InRange) ∧
    n.controllers (.odict [97]) = some c ∧
    ¬ Undisturbed twoClients ObjectArchive.nodeCodec disturbedRun n (.odict [97]) c ∧
    memory ObjectArchive.nodeCodec (callsOf (.odict [97]) disturbedRun) 1 = some [8] ∧
    c.stash = [] ∧ ∃ buckets, n.service.bucketsOf (.odict [97]) = some buckets ∧
      ∀ bucket ∈ buckets, ∀ b ∈ bucket, b.index ≠ 1 := by
  have hsize : (run twoClients ObjectArchive.nodeCodec cereal (.initial fun _ _ => 0)
      disturbedRun).map (fun n => (n.processes false).statics.maxSize) = some 1 := by
    decide +kernel
  have hstash : ((run twoClients ObjectArchive.nodeCodec cereal (.initial fun _ _ => 0)
      disturbedRun).bind fun n => n.controllers (.odict [97])).map Controller.stash = some [] := by
    decide +kernel
  have hbuckets : ((run twoClients ObjectArchive.nodeCodec cereal (.initial fun _ _ => 0)
      disturbedRun).bind fun n => n.service.bucketsOf (.odict [97])) =
        some [[Block.dummy], [⟨0, 0, [7]⟩], [Block.dummy, Block.dummy]] := by
    decide +kernel
  obtain ⟨n, hn, hsize⟩ := Option.map_eq_some_iff.mp hsize
  rw [hn, Option.bind_some] at hstash hbuckets
  obtain ⟨c, hc, hstash⟩ := Option.map_eq_some_iff.mp hstash
  refine ⟨n, c, hn, disturbedRun_inRange, hc, ?_, by decide, hstash, _, hbuckets, by decide⟩
  intro h
  have hown := h.own_size.symm.trans hsize
  exact absurd hown (by decide)

end ServiceIsolation
