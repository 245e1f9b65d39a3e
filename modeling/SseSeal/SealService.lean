import SseSeal.BucketArchive
import SseSeal.SortedMap

/-! `SealService`, the server that stores the buckets of all oblivious memories. It keeps those
of a dictionary under the map key, and those of the sub-ORAMs under the map key and a number. -/
namespace SealService

open Bytes OramReadPathEviction StateExcept SortedMap BucketArchive

structure Service where
  odictStorage : Dict Str (List Bucket)
  oramStorage : Dict Str (List (List Bucket))
  /-- The static members of `Bucket` in the process of the server. -/
  statics : Statics

def Service.initial : Service := ⟨.empty, .empty, .initial⟩

inductive Status where
  | ok
  | failedPrecondition
  deriving DecidableEq, Repr

inductive ServiceError where
  | outOfRange
  | undefinedBehaviour
  deriving DecidableEq, Repr

abbrev ServiceM := EStateM ServiceError Service

structure Target where
  isOdict : Bool
  oramId : ℤ
  mapKey : Str
  deriving DecidableEq, Repr

/-- Where the server keeps the buckets of an oblivious memory. -/
inductive Address where
  | odict (mapKey : Str)
  | oram (mapKey : Str) (oramId : ℕ)
  deriving DecidableEq, Repr

def Target.address (a : Target) : Address :=
  if a.isOdict then .odict a.mapKey else .oram a.mapKey (toUnsigned a.oramId)

structure BucketSetMessage extends Target where
  numberOfBuckets : ℤ

structure BucketReadMessage extends Target where
  position : ℤ

structure BucketWriteMessage extends Target where
  position : ℤ
  buffer : Str

def Service.bucketsOf (s : Service) : Address → Option (List Bucket)
  | .odict mapKey => s.odictStorage.find? mapKey
  | .oram mapKey oramId => (s.oramStorage.find? mapKey).bind fun storages => storages[oramId]?

/-- `oram_storage[map_key]`, which adds the key if it is not there. -/
def oramStorages (mapKey : Str) : ServiceM (List (List Bucket)) := do
  modify fun s => { s with oramStorage := s.oramStorage.alter mapKey fun v => v.getD [] }
  return ((← get).oramStorage.find? mapKey).getD []

def setOramStorages (mapKey : Str) (storages : List (List Bucket)) : ServiceM PUnit :=
  modify fun s => { s with oramStorage := s.oramStorage.alter mapKey fun _ => storages }

/-- `odict_storage[map_key]`, which adds the key if it is not there. -/
def odictBuckets (mapKey : Str) : ServiceM (List Bucket) := do
  modify fun s => { s with odictStorage := s.odictStorage.alter mapKey fun v => v.getD [] }
  return ((← get).odictStorage.find? mapKey).getD []

def setOdictBuckets (mapKey : Str) (buckets : List Bucket) : ServiceM PUnit :=
  modify fun s => { s with odictStorage := s.odictStorage.alter mapKey fun _ => buckets }

def setCapacity (m : BucketSetMessage) : ServiceM Status := do
  let newStorage := List.replicate (toUnsigned m.numberOfBuckets) ([] : Bucket)
  if m.isOdict then do
    setOdictBuckets m.mapKey newStorage
    return .ok
  else do
    let storages ← oramStorages m.mapKey
    if toUnsigned m.oramId = storages.length then do
      setOramStorages m.mapKey (storages ++ [newStorage])
      return .ok
    else if toUnsigned m.oramId < storages.length then do
      setOramStorages m.mapKey (storages.set (toUnsigned m.oramId) newStorage)
      return .ok
    else return .failedPrecondition

def indexed {α : Type} (l : List α) (i : ℕ) : ServiceM α := orThrow .undefinedBehaviour l[i]?

section Buckets

variable (archive : Archive)

/-- `read_bucket`, whose lookups all go through `at`. -/
def readBucket (m : BucketReadMessage) : ServiceM Str := do
  let s ← get
  let buckets ← orThrow .outOfRange (s.bucketsOf m.address)
  let bucket ← orThrow .outOfRange buckets[toUnsigned m.position]?
  return archive.serialize s.statics bucket

/-- `write_bucket`. The buffer is read first, and an exception that this throws is logged. -/
def writeBucket (m : BucketWriteMessage) : ServiceM Status := do
  modify fun s => { s with statics := archive.assign m.buffer s.statics }
  match archive.deserialize m.buffer with
  | none => return .ok
  | some bucket =>
    if m.isOdict then do
      let buckets ← odictBuckets m.mapKey
      let _ ← indexed buckets (toUnsigned m.position)
      setOdictBuckets m.mapKey (buckets.set (toUnsigned m.position) bucket)
      return .ok
    else do
      let storages ← oramStorages m.mapKey
      let buckets ← indexed storages (toUnsigned m.oramId)
      let _ ← indexed buckets (toUnsigned m.position)
      setOramStorages m.mapKey
        (storages.set (toUnsigned m.oramId) (buckets.set (toUnsigned m.position) bucket))
      return .ok

end Buckets

def Service.bucketAt (s : Service) (a : Address) (position : ℤ) : Option Bucket :=
  (s.bucketsOf a).bind fun buckets => buckets[toUnsigned position]?

variable {archive : Archive} {s s' : Service} {mapKey : Str} {bucket : Bucket}

structure Touched (a : Address) (s s' : Service) : Prop where
  bucketsOf : ∀ b ≠ a, s'.bucketsOf b = s.bucketsOf b
  statics : s'.statics = s.statics

theorem oramStorages_run : (oramStorages mapKey).run s =
    .ok ((s.oramStorage.find? mapKey).getD [])
      { s with oramStorage := s.oramStorage.alter mapKey fun v => v.getD [] } := by
  have hfind : (s.oramStorage.alter mapKey fun v => v.getD []).find? mapKey =
      some ((s.oramStorage.find? mapKey).getD []) := Dict.find?_alter_self
  rw [oramStorages, run_bind_ok (run_modify _ s), run_bind_ok (run_get _), run_pure, hfind]
  rfl

theorem oramStorages_returns : Returns (oramStorages mapKey) s fun storages s' =>
    storages = (s.oramStorage.find? mapKey).getD [] ∧ (∀ a, Touched a s s') ∧
      s'.oramStorage.find? mapKey = some storages := by
  refine ⟨_, _, oramStorages_run, rfl, ?_, Dict.find?_alter_self⟩
  intro a
  refine ⟨?_, rfl⟩
  intro b _
  cases b with
  | odict k => rfl
  | oram k i =>
    simp only [Service.bucketsOf, Dict.find?_alter]
    by_cases hk : k = mapKey
    · subst hk
      cases s.oramStorage.find? k with
      | none => simp
      | some storages => simp
    · rw [if_neg hk]

theorem odictBuckets_returns : Returns (odictBuckets mapKey) s fun buckets s' =>
    buckets = (s.bucketsOf (.odict mapKey)).getD [] ∧ Touched (.odict mapKey) s s' := by
  apply returns_modify.bind
  intro _ s₁ hs₁
  subst hs₁
  apply returns_get.bind
  intro _ s₂ hs₂
  obtain ⟨rfl, rfl⟩ := hs₂
  refine returns_pure ⟨by simp [Service.bucketsOf], ?_, rfl⟩
  intro b hb
  cases b with
  | odict k =>
    have hk : k ≠ mapKey := fun heq => hb (by rw [heq])
    simp [Service.bucketsOf, Dict.find?_alter, hk]
  | oram k i => rfl

structure Replaced (s : Service) (a : Address) (buckets : List Bucket) (s' : Service) : Prop where
  bucketsOf : ∀ b, s'.bucketsOf b = if b = a then some buckets else s.bucketsOf b
  statics : s'.statics = s.statics

theorem Touched.replaced {t : Service} {a : Address} {buckets : List Bucket} (h : Touched a s t)
    (hr : Replaced t a buckets s') : Replaced s a buckets s' := by
  refine ⟨?_, hr.statics.trans h.statics⟩
  intro b
  rw [hr.bucketsOf]
  by_cases hb : b = a
  · rw [if_pos hb, if_pos hb]
  · rw [if_neg hb, if_neg hb, h.bucketsOf b hb]

theorem setOdictBuckets_returns (buckets : List Bucket) :
    Returns (setOdictBuckets mapKey buckets) s fun _ s' =>
      Replaced s (.odict mapKey) buckets s' := by
  apply returns_modify.imp
  intro _ s' hs'
  subst hs'
  refine ⟨?_, rfl⟩
  intro b
  cases b with
  | odict k =>
    by_cases hk : k = mapKey
    · simp [Service.bucketsOf, hk]
    · simp [Service.bucketsOf, hk, Dict.find?_alter]
  | oram k i => simp [Service.bucketsOf]

theorem setOramStorages_returns {before storages : List (List Bucket)} {i : ℕ}
    {buckets : List Bucket} (hs : s.oramStorage.find? mapKey = some before)
    (hi : storages[i]? = some buckets) (hother : ∀ j ≠ i, storages[j]? = before[j]?) :
    Returns (setOramStorages mapKey storages) s fun _ s' =>
      Replaced s (.oram mapKey i) buckets s' := by
  apply returns_modify.imp
  intro _ s' hs'
  subst hs'
  refine ⟨?_, rfl⟩
  intro b
  cases b with
  | odict k => simp [Service.bucketsOf]
  | oram k j =>
    by_cases hk : k = mapKey
    · subst hk
      by_cases hj : j = i
      · simp [Service.bucketsOf, hj, hi]
      · simp [Service.bucketsOf, hj, hs, hother j hj]
    · simp [Service.bucketsOf, hk, Dict.find?_alter]

def Service.oramCount (s : Service) (mapKey : Str) : ℕ :=
  ((s.oramStorage.find? mapKey).getD []).length

theorem setCapacity_replaces {m : BucketSetMessage}
    (h : m.isOdict ∨ toUnsigned m.oramId ≤ s.oramCount m.mapKey) :
    Returns (setCapacity m) s fun status s' => status = .ok ∧
      Replaced s m.address (List.replicate (toUnsigned m.numberOfBuckets) []) s' := by
  rw [setCapacity, Target.address]
  by_cases hodict : m.isOdict
  · rw [if_pos hodict, if_pos hodict]
    apply (setOdictBuckets_returns _).bind
    intro _ s₁ hs₁
    exact returns_pure ⟨rfl, hs₁⟩
  · have hle := h.resolve_left hodict
    rw [if_neg hodict, if_neg hodict]
    apply oramStorages_returns.bind
    intro storages s₁ hs₁
    obtain ⟨hstorages, htouched, hfind⟩ := hs₁
    rw [Service.oramCount, ← hstorages] at hle
    by_cases hlast : toUnsigned m.oramId = storages.length
    · rw [if_pos hlast]
      apply Returns.bind (setOramStorages_returns (i := toUnsigned m.oramId) hfind ?_ ?_)
      · intro _ s₂ hs₂
        exact returns_pure ⟨rfl, (htouched _).replaced hs₂⟩
      · rw [hlast, List.getElem?_concat_length]
      · intro j hj
        rw [hlast] at hj
        rcases Nat.lt_or_gt_of_ne hj with hlt | hgt
        · exact List.getElem?_append_left hlt
        · rw [List.getElem?_eq_none (by simp; omega), List.getElem?_eq_none hgt.le]
    · have hlt : toUnsigned m.oramId < storages.length := by omega
      rw [if_neg hlast, if_pos hlt]
      apply Returns.bind (setOramStorages_returns (i := toUnsigned m.oramId) hfind ?_ ?_)
      · intro _ s₂ hs₂
        exact returns_pure ⟨rfl, (htouched _).replaced hs₂⟩
      · exact List.getElem?_set_self hlt
      · intro j hj
        exact List.getElem?_set_ne (Ne.symm hj)

theorem setCapacity_refuses {m : BucketSetMessage}
    (h : ¬ (m.isOdict ∨ toUnsigned m.oramId ≤ s.oramCount m.mapKey)) :
    (setCapacity m).run s = .ok .failedPrecondition
      { s with oramStorage := s.oramStorage.alter m.mapKey fun v => v.getD [] } := by
  rw [not_or, not_le, Service.oramCount] at h
  obtain ⟨hodict, hlt⟩ := h
  rw [setCapacity, if_neg hodict, run_bind_ok oramStorages_run, if_neg hlt.ne', if_neg hlt.not_gt]
  rfl

theorem readBucket_run {m : BucketReadMessage} (h : s.bucketAt m.address m.position = some bucket) :
    (readBucket archive m).run s = .ok (archive.serialize s.statics bucket) s := by
  obtain ⟨buckets, hbuckets, hbucket⟩ := Option.bind_eq_some_iff.mp h
  rw [readBucket, run_bind_ok (run_get s), hbuckets]
  exact (run_bind_ok rfl).trans (by rw [hbucket]; exact run_bind_ok rfl)

structure Written (archive : Archive) (s : Service) (m : BucketWriteMessage) (bucket : Bucket)
    (s' : Service) : Prop where
  bucketAt : ∀ b position, s'.bucketAt b position =
    if b = m.address ∧ toUnsigned position = toUnsigned m.position then some bucket
    else s.bucketAt b position
  statics : s'.statics = archive.assign m.buffer s.statics

theorem Replaced.written {m : BucketWriteMessage} {buckets : List Bucket}
    (hbuckets : s.bucketsOf m.address = some buckets)
    (hlt : toUnsigned m.position < buckets.length)
    (h : Replaced { s with statics := archive.assign m.buffer s.statics } m.address
      (buckets.set (toUnsigned m.position) bucket) s') : Written archive s m bucket s' := by
  refine ⟨?_, h.statics⟩
  intro b position
  rw [Service.bucketAt, h.bucketsOf]
  by_cases hb : b = m.address
  · subst hb
    rw [if_pos rfl, Option.bind_some, Service.bucketAt, hbuckets, Option.bind_some]
    by_cases hp : toUnsigned position = toUnsigned m.position
    · rw [if_pos ⟨rfl, hp⟩, hp, List.getElem?_set_self hlt]
    · rw [if_neg (by simp [hp]), List.getElem?_set_ne (Ne.symm hp)]
  · rw [if_neg hb, if_neg (by simp [hb])]
    rfl

theorem writeBucket_malformed {m : BucketWriteMessage} (h : archive.deserialize m.buffer = none) :
    (writeBucket archive m).run s =
      .ok .ok { s with statics := archive.assign m.buffer s.statics } := by
  rw [writeBucket, run_bind_ok (run_modify _ s), h]
  rfl

theorem writeBucket_run {m : BucketWriteMessage} (hd : archive.deserialize m.buffer = some bucket) :
    (writeBucket archive m).run s = (if m.isOdict then (do
      let buckets ← odictBuckets m.mapKey
      let _ ← indexed buckets (toUnsigned m.position)
      setOdictBuckets m.mapKey (buckets.set (toUnsigned m.position) bucket)
      return Status.ok : ServiceM Status)
    else do
      let storages ← oramStorages m.mapKey
      let buckets ← indexed storages (toUnsigned m.oramId)
      let _ ← indexed buckets (toUnsigned m.position)
      setOramStorages m.mapKey
        (storages.set (toUnsigned m.oramId) (buckets.set (toUnsigned m.position) bucket))
      return Status.ok).run { s with statics := archive.assign m.buffer s.statics } := by
  rw [writeBucket, run_bind_ok (run_modify _ s), hd]

theorem writeBucket_replaces {m : BucketWriteMessage} {buckets : List Bucket}
    (hd : archive.deserialize m.buffer = some bucket)
    (hbuckets : s.bucketsOf m.address = some buckets)
    (hlt : toUnsigned m.position < buckets.length) :
    Returns (writeBucket archive m) s fun status s' => status = .ok ∧
      Replaced { s with statics := archive.assign m.buffer s.statics } m.address
        (buckets.set (toUnsigned m.position) bucket) s' := by
  have hold := List.getElem?_eq_getElem hlt
  rw [Returns, writeBucket_run hd]
  rw [Target.address] at hbuckets ⊢
  by_cases hodict : m.isOdict
  · rw [if_pos hodict] at hbuckets ⊢
    apply Returns.bind odictBuckets_returns
    intro b s₁ hs₁
    obtain ⟨hb, htouched⟩ := hs₁
    have hsame : b = buckets := hb.trans (congrArg (fun o => Option.getD o []) hbuckets)
    rw [hsame]
    apply (orThrow_returns hold).bind
    intro _ s₂ hs₂
    rw [hs₂.2]
    apply (setOdictBuckets_returns _).bind
    intro _ s₃ hs₃
    rw [if_pos hodict]
    exact returns_pure ⟨rfl, htouched.replaced hs₃⟩
  · rw [if_neg hodict] at hbuckets ⊢
    obtain ⟨storages, hstorages, hid⟩ := Option.bind_eq_some_iff.mp hbuckets
    apply Returns.bind oramStorages_returns
    intro b s₁ hs₁
    obtain ⟨hb, htouched, hfind⟩ := hs₁
    have hsame : b = storages := hb.trans (congrArg (fun o => Option.getD o []) hstorages)
    rw [hsame] at hfind ⊢
    apply (orThrow_returns hid).bind
    intro _ s₂ hs₂
    rw [hs₂.1, hs₂.2]
    apply (orThrow_returns hold).bind
    intro _ s₃ hs₃
    rw [hs₃.2]
    have hset := List.getElem?_set_self (a := buckets.set (toUnsigned m.position) bucket)
      (List.getElem?_eq_some_iff.mp hid).1
    apply (setOramStorages_returns hfind hset
      fun j hj => List.getElem?_set_ne (Ne.symm hj)).bind
    intro _ s₄ hs₄
    rw [if_neg hodict]
    exact returns_pure ⟨rfl, (htouched _).replaced hs₄⟩

theorem writeBucket_writes {m : BucketWriteMessage}
    (hd : archive.deserialize m.buffer = some bucket)
    (hat : (s.bucketAt m.address m.position).isSome) :
    Returns (writeBucket archive m) s fun status s' => status = .ok ∧
      Written archive s m bucket s' := by
  obtain ⟨old, hat⟩ := Option.isSome_iff_exists.mp hat
  obtain ⟨buckets, hbuckets, hold⟩ := Option.bind_eq_some_iff.mp hat
  have hlt := (List.getElem?_eq_some_iff.mp hold).1
  apply (writeBucket_replaces hd hbuckets hlt).imp
  intro status s' hs'
  exact ⟨hs'.1, hs'.2.written hbuckets hlt⟩

theorem indexed_ends {α : Type} (l : List α) (i : ℕ) :
    Ends (indexed l i) s (fun a _ => l[i]? = some a) fun e _ => e = .undefinedBehaviour := by
  rw [indexed]
  cases h : l[i]? with
  | none => exact ends_error rfl rfl
  | some a => exact ends_ok rfl rfl

theorem writeBucket_out_of_bounds {m : BucketWriteMessage}
    (hd : archive.deserialize m.buffer = some bucket)
    (hat : s.bucketAt m.address m.position = none) :
    Ends (writeBucket archive m) s (fun _ _ => False) fun e _ => e = .undefinedBehaviour := by
  rw [Ends, writeBucket_run hd]
  rw [Service.bucketAt, Target.address] at hat
  by_cases hodict : m.isOdict
  · rw [if_pos hodict] at hat ⊢
    apply Ends.bind odictBuckets_returns.ends
    intro buckets s₁ hs₁
    apply Ends.bind (indexed_ends _ _)
    intro old s₂ hold
    rw [hs₁.1] at hold
    simp only [Service.bucketsOf] at hat hold
    cases hfind : s.odictStorage.find? m.mapKey with
    | none =>
      rw [hfind] at hold
      cases hold
    | some buckets =>
      rw [hfind, Option.getD_some] at hold
      rw [hfind, Option.bind_some, hold] at hat
      cases hat
  · rw [if_neg hodict] at hat ⊢
    apply Ends.bind oramStorages_returns.ends
    intro storages s₁ hs₁
    apply Ends.bind (indexed_ends _ _)
    intro buckets s₂ hbuckets
    apply Ends.bind (indexed_ends _ _)
    intro old s₃ hold
    rw [hs₁.1] at hbuckets
    simp only [Service.bucketsOf] at hat
    cases hfind : s.oramStorage.find? m.mapKey with
    | none =>
      rw [hfind] at hbuckets
      cases hbuckets
    | some storages =>
      rw [hfind, Option.getD_some] at hbuckets
      rw [hfind, Option.bind_some, hbuckets, Option.bind_some, hold] at hat
      cases hat

theorem setCapacity_ok {m : BucketSetMessage} (h : (setCapacity m).run s = .ok .ok s') :
    Replaced s m.address (List.replicate (toUnsigned m.numberOfBuckets) []) s' := by
  by_cases hle : m.isOdict ∨ toUnsigned m.oramId ≤ s.oramCount m.mapKey
  · obtain ⟨status, t, hrun, _, hreplaced⟩ := setCapacity_replaces hle
    cases hrun.symm.trans h
    exact hreplaced
  · cases (setCapacity_refuses hle).symm.trans h

theorem readBucket_ok {m : BucketReadMessage} {response : Str}
    (h : (readBucket archive m).run s = .ok response s') :
    ∃ bucket, s.bucketAt m.address m.position = some bucket ∧
      response = archive.serialize s.statics bucket ∧ s' = s := by
  obtain ⟨_, _, hget, h⟩ := bind_ok h
  cases hget
  obtain ⟨buckets, t, hbuckets, h⟩ := bind_ok h
  obtain ⟨hfind, rfl⟩ := orThrow_ok hbuckets
  obtain ⟨bucket, t, hbucket, h⟩ := bind_ok h
  obtain ⟨hat, rfl⟩ := orThrow_ok hbucket
  cases h
  exact ⟨bucket, Option.bind_eq_some_iff.mpr ⟨buckets, hfind, hat⟩, rfl, rfl⟩

theorem writeBucket_ok {m : BucketWriteMessage} {status : Status}
    (hd : archive.deserialize m.buffer = some bucket)
    (h : (writeBucket archive m).run s = .ok status s') :
    ∃ buckets, s.bucketsOf m.address = some buckets ∧
      toUnsigned m.position < buckets.length ∧
      Replaced { s with statics := archive.assign m.buffer s.statics } m.address
        (buckets.set (toUnsigned m.position) bucket) s' := by
  cases hat : s.bucketAt m.address m.position with
  | none => exact ((writeBucket_out_of_bounds hd hat).post_of_ok h).elim
  | some old =>
    obtain ⟨buckets, hbuckets, hold⟩ := Option.bind_eq_some_iff.mp hat
    have hlt := (List.getElem?_eq_some_iff.mp hold).1
    obtain ⟨status', t, hrun, _, hreplaced⟩ := writeBucket_replaces hd hbuckets hlt
    cases hrun.symm.trans h
    exact ⟨buckets, hbuckets, hlt, hreplaced⟩

end SealService
