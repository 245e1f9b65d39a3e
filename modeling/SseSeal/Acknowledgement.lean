import SseSeal.SealService

/-! What the server's answer to an update says: that it took effect, or that nothing was
changed. An update that cannot be read, or is for a place that does not exist, is acknowledged
or runs out of bounds. -/
namespace Acknowledgement

open Bytes OramReadPathEviction StateExcept SortedMap BucketArchive SealService

inductive Request where
  | setCapacity (m : BucketSetMessage)
  | writeBucket (m : BucketWriteMessage)

section Requests

variable (archive : Archive)

def Request.run : Request → ServiceM Status
  | setCapacity m => SealService.setCapacity m
  | writeBucket m => SealService.writeBucket archive m

def Request.TookEffect (s : Service) : Request → Prop
  | setCapacity m =>
    s.bucketsOf m.address = some (List.replicate (toUnsigned m.numberOfBuckets) [])
  | writeBucket m => ∃ bucket, archive.deserialize m.buffer = some bucket ∧ ∃ response s',
      (readBucket archive ⟨m.toTarget, m.position⟩).run s = .ok response s' ∧
        archive.deserialize response = some bucket

structure SameStorages (s s' : Service) : Prop where
  odictStorage : s'.odictStorage = s.odictStorage
  oramStorage : s'.oramStorage = s.oramStorage

/-- A call that returns OK took effect, and one that does not changed nothing. No vector is
indexed out of its bounds. -/
def Sound (s : Service) (r : Request) : Prop :=
  match (r.run archive).run s with
  | .ok .ok s' => r.TookEffect archive s'
  | .ok .failedPrecondition s' => SameStorages s s'
  | .error e s' => e ≠ .undefinedBehaviour ∧ SameStorages s s'

/-- A new sub-ORAM is numbered after the present ones, or the map key is known. A bucket can be
read from its buffer, and the server has its place. -/
def Admissible (s : Service) : Request → Prop
  | .setCapacity m => m.isOdict ∨ toUnsigned m.oramId ≤ s.oramCount m.mapKey ∨
      (s.oramStorage.find? m.mapKey).isSome
  | .writeBucket m =>
    (archive.deserialize m.buffer).isSome ∧ (s.bucketAt m.address m.position).isSome

def next (s : Service) (r : Request) : Option Service :=
  match (r.run archive).run s with
  | .ok _ s' => some s'
  | .error .undefinedBehaviour _ => none
  | .error .outOfRange s' => some s'

/-- A property of the calls of a run, each in the state it meets. -/
def InRun (P : Service → Request → Prop) : Service → List Request → Prop
  | _, [] => True
  | s, r :: requests => P s r ∧ ∀ s', next archive s r = some s' → InRun P s' requests

end Requests

variable {archive : Archive} {s : Service}

theorem setCapacity_sound_iff (m : BucketSetMessage) :
    Sound archive s (.setCapacity m) ↔ Admissible archive s (.setCapacity m) := by
  by_cases h : m.isOdict ∨ toUnsigned m.oramId ≤ s.oramCount m.mapKey
  · obtain ⟨status, s', hrun, hok, hreplaced⟩ := setCapacity_replaces h
    subst hok
    have hsound : Sound archive s (.setCapacity m) := by
      simp only [Sound, Request.run, hrun]
      exact (hreplaced.bucketsOf m.address).trans (if_pos rfl)
    constructor
    · intro _
      exact h.imp_right Or.inl
    · intro _
      exact hsound
  · have hrun := setCapacity_refuses h
    have hiff : Sound archive s (.setCapacity m) ↔
        s.oramStorage.alter m.mapKey (fun v => v.getD []) = s.oramStorage := by
      simp only [Sound, Request.run, hrun]
      constructor
      · intro hsame
        exact hsame.oramStorage
      · intro hsame
        exact ⟨rfl, hsame⟩
    rw [not_or] at h
    rw [hiff, Admissible]
    constructor
    · intro hsame
      have hfind : (s.oramStorage.alter m.mapKey fun v => v.getD []).find? m.mapKey =
          some ((s.oramStorage.find? m.mapKey).getD []) := Dict.find?_alter_self
      rw [hsame] at hfind
      exact Or.inr (Or.inr (by rw [hfind]; rfl))
    · intro hadmissible
      rcases hadmissible with hodict | hle | hknown
      · exact absurd hodict h.1
      · exact absurd hle h.2
      · obtain ⟨storages, hstorages⟩ := Option.isSome_iff_exists.mp hknown
        exact Dict.alter_self hstorages rfl

theorem writeBucket_sound_iff (m : BucketWriteMessage) :
    Sound archive s (.writeBucket m) ↔ Admissible archive s (.writeBucket m) := by
  cases hd : archive.deserialize m.buffer with
  | none =>
    have hrun : (writeBucket archive m).run s = _ := writeBucket_malformed hd
    simp [Sound, Request.run, hrun, Request.TookEffect, Admissible, hd]
  | some bucket =>
    cases hat : s.bucketAt m.address m.position with
    | none =>
      have hends := writeBucket_out_of_bounds hd hat
      rcases hends with ⟨_, _, _, hfalse⟩ | ⟨e, s', hrun, rfl⟩
      · exact hfalse.elim
      · simp [Sound, Request.run, hrun, Admissible, hat]
    | some old =>
      obtain ⟨status, s', hrun, hok, hwritten⟩ :=
        writeBucket_writes (s := s) hd (by rw [hat]; rfl)
      subst hok
      have hat' : s'.bucketAt m.address m.position = some bucket :=
        (hwritten.bucketAt m.address m.position).trans (if_pos ⟨rfl, rfl⟩)
      have hread : (readBucket archive ⟨m.toTarget, m.position⟩).run s' =
          .ok (archive.serialize s'.statics bucket) s' := readBucket_run hat'
      constructor
      · intro _
        exact ⟨by rw [hd]; rfl, by rw [hat]; rfl⟩
      · intro _
        simp only [Sound, Request.run, hrun]
        exact ⟨bucket, hd, _, s', hread, archive.roundTrip _ _⟩

theorem sound_iff (r : Request) : Sound archive s r ↔ Admissible archive s r := by
  cases r with
  | setCapacity m => exact setCapacity_sound_iff m
  | writeBucket m => exact writeBucket_sound_iff m

/-- From a new server on, the answers to all updates are true if and only if each update is
admissible in the state it meets. -/
theorem requests_sound_iff (archive : Archive) (requests : List Request) :
    InRun archive (Sound archive) .initial requests ↔
      InRun archive (Admissible archive) .initial requests := by
  generalize Service.initial = s
  induction requests generalizing s with
  | nil => exact Iff.rfl
  | cons r requests ih =>
    constructor
    · intro h
      exact ⟨(sound_iff r).mp h.1, fun s' hs' => (ih s').mp (h.2 s' hs')⟩
    · intro h
      exact ⟨(sound_iff r).mpr h.1, fun s' hs' => (ih s').mpr (h.2 s' hs')⟩

/-- With a dictionary of one bucket: a write of an empty buffer, a write behind the bucket, and a
sub-ORAM that is not the first of its map key. -/
theorem updates_unsound :
    ∃ s s', next cereal .initial (.setCapacity ⟨⟨true, 0, [116]⟩, 1⟩) = some s ∧
      (writeBucket cereal ⟨⟨true, 0, [116]⟩, 0, []⟩).run s = .ok .ok s' ∧
      ¬ Sound cereal s (.writeBucket ⟨⟨true, 0, [116]⟩, 0, []⟩) ∧
      ¬ Sound cereal s
        (.writeBucket ⟨⟨true, 0, [116]⟩, 1, cereal.serialize ⟨true, 1⟩ [Block.dummy]⟩) ∧
      ¬ Sound cereal s (.setCapacity ⟨⟨false, 1, [116]⟩, 1⟩) := by
  have hempty : cereal.deserialize [] = none := rfl
  refine ⟨_, _, rfl, writeBucket_malformed hempty, ?_, ?_, ?_⟩
  · rw [sound_iff, Admissible, hempty]
    intro h
    cases h.1
  · rw [sound_iff, Admissible]
    intro h
    cases h.2
  · rw [sound_iff, Admissible]
    intro h
    rcases h with h | h | h
    · cases h
    · revert h
      decide
    · cases h

end Acknowledgement
