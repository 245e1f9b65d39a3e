import SseSeal.ObjectArchive
import SseSeal.OramReadPathEviction

/-! The archive of a bucket. It begins with the static members of `Bucket`, and to read it
assigns them. -/
namespace BucketArchive

open Bytes BinaryArchive ObjectArchive OramReadPathEviction

/-- `Bucket::is_init` and `Bucket::max_size`, which every process has once. -/
structure Statics where
  isInit : Bool
  maxSize : ℤ
  deriving DecidableEq, Repr

def Statics.initial : Statics := ⟨false, -1⟩

/-- `serialize<Bucket>` and `deserialize<Bucket>`. What a malformed archive says of the static
members is assigned before the exception. -/
structure Archive where
  serialize : Statics → Bucket → Str
  deserialize : Str → Option Bucket
  assign : Str → Statics → Statics
  roundTrip : ∀ a bucket, deserialize (serialize a bucket) = some bucket
  assign_serialize : ∀ a bucket b, assign (serialize a bucket) b = a

def boolFormat : Format Bool where
  put b := [if b then 1 else 0]
  get
    | [] => none
    | b :: s => some (b != 0, s)
  Valid _ := True
  get_put b rest _ := by cases b <;> rfl

def staticsFormat : Format Statics :=
  (boolFormat.pair int32).record (fun a => (a.isInit, a.maxSize)) (fun r => ⟨r.1, r.2⟩)
    fun _ => rfl

def blockFormat : Format Block :=
  (int32.pair (int32.pair stringFormat)).record (fun b => (b.leafId, b.index, b.data))
    (fun r => ⟨r.1, r.2.1, r.2.2⟩) fun _ => rfl

def bucketFormat : Format (Statics × Bucket) := staticsFormat.pair (blockFormat.sequence 8)

instance : DecidablePred blockFormat.Valid := fun b =>
  inferInstanceAs (Decidable (int32.Valid b.leafId ∧ int32.Valid b.index ∧
    stringFormat.Valid b.data))

instance : DecidablePred bucketFormat.Valid := fun p =>
  inferInstanceAs (Decidable ((True ∧ int32.Valid p.1.maxSize) ∧ p.2.length < 256 ^ 8 - 1 ∧
    ∀ b ∈ p.2, blockFormat.Valid b))

instance : Encodable Statics :=
  Encodable.ofLeftInverse (fun a => (a.isInit, a.maxSize)) (fun r => ⟨r.1, r.2⟩) fun _ => rfl

instance : Encodable Block :=
  Encodable.ofLeftInverse (fun b => (b.leafId, b.index, b.data)) (fun r => ⟨r.1, r.2.1, r.2.2⟩)
    fun _ => rfl

/-- The first byte of a valid archive is 0 or 1. -/
def bucketMark : Str := [255]

theorem bucketFormat_no_mark (p : Statics × Bucket) : ¬ bucketMark <+: bucketFormat.put p := by
  obtain ⟨⟨isInit, maxSize⟩, bucket⟩ := p
  intro h
  have hbyte : (255 : UInt8) = if isInit then 1 else 0 := (List.cons_prefix_cons.mp h).1
  cases isInit <;> exact absurd hbyte (by decide)

/-- What the front of an archive assigns, field after field. -/
def assignFront (s : Str) (a : Statics) : Statics :=
  match boolFormat.get s with
  | none => a
  | some (isInit, rest) =>
    match int32.get rest with
    | none => { a with isInit := isInit }
    | some (maxSize, _) => ⟨isInit, maxSize⟩

theorem assignFront_put (a b : Statics) (rest : Str) (h : int32.Valid a.maxSize) :
    assignFront (staticsFormat.put a ++ rest) b = a := by
  have hput : staticsFormat.put a ++ rest =
      boolFormat.put a.isInit ++ (int32.put a.maxSize ++ rest) := List.append_assoc _ _ _
  rw [assignFront, hput, boolFormat.get_put _ _ trivial]
  simp only [int32.get_put _ _ h]

def cereal : Archive where
  serialize a bucket := bucketFormat.write bucketMark (a, bucket)
  deserialize s := (bucketFormat.read bucketMark s).map Prod.snd
  assign s b :=
    if bucketMark <+: s then ((bucketFormat.read bucketMark s).map Prod.fst).getD b
    else assignFront s b
  roundTrip a bucket := by
    rw [bucketFormat.read_write bucketMark fun p _ => bucketFormat_no_mark p]
    rfl
  assign_serialize a bucket b := by
    rw [bucketFormat.read_write bucketMark fun p _ => bucketFormat_no_mark p]
    by_cases hvalid : bucketFormat.Valid (a, bucket)
    · rw [Format.write, if_pos hvalid, if_neg (bucketFormat_no_mark _)]
      exact assignFront_put a b _ hvalid.1.2
    · rw [Format.write, if_neg hvalid, if_pos (List.prefix_append _ _)]
      rfl

end BucketArchive
