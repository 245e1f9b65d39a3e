import SseSeal.BucketArchive
import SseSeal.FormatReading

/-! What `deserialize` accepts. The bytes come from the server, so they need not be an archive
that the client wrote; they are read as an object exactly if they begin with its archive. -/
namespace ArchiveReading

open Bytes Objects BinaryArchive ObjectArchive OramReadPathEviction BucketArchive FormatReading

/-- No archive is as long: a length of this size stands for no string. -/
def sizeLimit : ℕ := 256 ^ 8 - 1

variable {s : Str} {n : Node} {d : Document} {a : Statics} {bucket : Bucket}

theorem string_exact : Exact stringFormat sizeLimit :=
  (exact_byte _).sequence (by decide) le_rfl

theorem childrenPos_exact : Exact childrenPosFormat sizeLimit :=
  ((exact_int32 _).pair (exact_int32 _)).record _ fun _ => rfl

theorem node_exact : Exact nodeFormat sizeLimit := by
  have hint : Exact int32 sizeLimit := exact_int32 _
  have hchildren := (childrenPos_exact.pair childrenPos_exact).pair (hint.pair hint)
  have hfields := string_exact.pair (hint.pair (hint.pair (hint.pair (string_exact.pair
    (hint.pair (hint.pair hchildren))))))
  exact hfields.record _ fun _ => rfl

theorem document_exact : Exact documentFormat sizeLimit :=
  ((exact_unsigned (by decide) _).pair (string_exact.sequence (by decide) le_rfl)).record _
    fun _ => rfl

theorem block_exact : Exact blockFormat sizeLimit :=
  ((exact_int32 _).pair ((exact_int32 _).pair string_exact)).record _ fun _ => rfl

theorem bool_describes :
    Describes boolFormat sizeLimit fun b front => ∃ flag, (flag != 0) = b ∧ front = [flag] := by
  constructor
  · intro s b rest _
    cases s with
    | nil => simp [boolFormat]
    | cons flag s =>
      simp only [boolFormat, Option.some.injEq, Prod.mk.injEq]
      constructor
      · rintro ⟨rfl, rfl⟩
        exact ⟨[flag], ⟨flag, rfl, rfl⟩, rfl⟩
      · rintro ⟨_, ⟨_, rfl, rfl⟩, hsplit⟩
        cases hsplit
        exact ⟨rfl, rfl⟩
  · rintro b _ ⟨flag, _, rfl⟩
    exact List.cons_ne_nil _ _

/-- A flag can be written in several ways, of which the client writes one. -/
theorem bucket_describes : Describes bucketFormat sizeLimit fun p front =>
    bucketFormat.Valid p ∧ ∃ flag, (flag != 0) = p.1.isInit ∧
      front = flag :: (int32.put p.1.maxSize ++ (blockFormat.sequence 8).put p.2) := by
  have hstatics : Describes staticsFormat sizeLimit fun a front => ∃ u v, front = u ++ v ∧
      (∃ flag, (flag != 0) = a.isInit ∧ u = [flag]) ∧
      int32.Valid a.maxSize ∧ v = int32.put a.maxSize :=
    (bool_describes.pair (exact_int32 _)).record _ fun _ => rfl
  apply (hstatics.pair (block_exact.sequence (by decide) le_rfl)).congr
  rintro ⟨a, bucket⟩ front
  constructor
  · rintro ⟨_, _, rfl, ⟨_, _, rfl, ⟨flag, hflag, rfl⟩, hmax, rfl⟩, hblocks, rfl⟩
    exact ⟨⟨⟨trivial, hmax⟩, hblocks⟩, flag, hflag, rfl⟩
  · rintro ⟨⟨⟨_, hmax⟩, hblocks⟩, flag, hflag, rfl⟩
    exact ⟨_, _, rfl, ⟨_, _, rfl, ⟨flag, hflag, rfl⟩, hmax, rfl⟩, hblocks, rfl⟩

theorem exact_iff {α : Type} {f : Format α} (h : Exact f sizeLimit) (hs : s.length < sizeLimit)
    (x : α) (rest : Str) :
    f.get s = some (x, rest) ↔ f.Valid x ∧ s = f.put x ++ rest := by
  rw [h.get_iff s x rest hs]
  constructor
  · rintro ⟨_, ⟨hx, rfl⟩, hsplit⟩
    exact ⟨hx, hsplit⟩
  · rintro ⟨hx, hsplit⟩
    exact ⟨f.put x, ⟨hx, rfl⟩, hsplit⟩

/-- Bytes are read as an object exactly if they begin with the archive of an object whose numbers
fit their types, and this archive is read off them. A bucket has to begin with a flag. -/
theorem archive_reads (s : Str) (hs : s.length < sizeLimit) :
    (∀ n rest, nodeFormat.get s = some (n, rest) ↔
        nodeFormat.Valid n ∧ s = nodeFormat.put n ++ rest) ∧
      (∀ d rest, documentFormat.get s = some (d, rest) ↔
        documentFormat.Valid d ∧ s = documentFormat.put d ++ rest) ∧
      ((∀ flag ∈ s.head?, flag = 0 ∨ flag = 1) → ∀ a bucket rest,
        bucketFormat.get s = some ((a, bucket), rest) ↔
          bucketFormat.Valid (a, bucket) ∧ s = bucketFormat.put (a, bucket) ++ rest) := by
  refine ⟨exact_iff node_exact hs, exact_iff document_exact hs, ?_⟩
  intro hhead a bucket rest
  have hput : ∀ flag : UInt8, flag = 0 ∨ flag = 1 → (flag != 0) = a.isInit →
      bucketFormat.put (a, bucket) =
        flag :: (int32.put a.maxSize ++ (blockFormat.sequence 8).put bucket) := by
    obtain ⟨isInit, maxSize⟩ := a
    rintro _ (rfl | rfl) rfl
    · rfl
    · rfl
  rw [bucket_describes.get_iff s (a, bucket) rest hs]
  constructor
  · rintro ⟨_, ⟨hvalid, flag, hflag, rfl⟩, rfl⟩
    exact ⟨hvalid, by rw [hput flag (hhead flag rfl) hflag]⟩
  · rintro ⟨hvalid, rfl⟩
    have hflag : ((if a.isInit then 1 else 0 : UInt8) != 0) = a.isInit := by
      cases a.isInit <;> rfl
    refine ⟨_, ⟨hvalid, if a.isInit then 1 else 0, hflag, ?_⟩, rfl⟩
    exact hput _ (by cases a.isInit <;> simp) hflag

theorem archive_reads_document :
    documentFormat.get [7, 0, 0, 0, 0, 0, 0, 0, 0, 0, 0, 0, 9] = some (⟨7, []⟩, [9]) := by
  have hs : ([7, 0, 0, 0, 0, 0, 0, 0, 0, 0, 0, 0, 9] : Str).length < sizeLimit := by decide
  obtain ⟨_, hdocument, _⟩ := archive_reads _ hs
  apply (hdocument _ _).mpr
  have hvalid : documentFormat.Valid ⟨7, []⟩ := by decide
  exact ⟨hvalid, rfl⟩

theorem read_cut {α : Type} [Encodable α] {f : Format α} [DecidablePred f.Valid] {mark : Str}
    {L : α → Str → Prop} (h : Describes f sizeLimit L)
    (hmark : ∀ x, f.Valid x → ¬ mark <+: f.put x) {x : α} (hx : f.Valid x)
    (hlen : (f.put x).length < sizeLimit) (hs : s <+: f.write mark x)
    (hne : s ≠ f.write mark x) : f.read mark s = none := by
  rw [Format.write, if_pos hx] at hs hne
  have hno : ¬ mark <+: s := fun hp => hmark x hx (hp.trans hs)
  rw [Format.read, if_neg hno, h.get_cut hx hlen hs hne, Option.map_none]

/-- Of an archive that was cut off anywhere, `deserialize` makes no object at all. -/
theorem archive_cut :
    (∀ n : Node, nodeFormat.Valid n → (nodeFormat.put n).length < sizeLimit → ∀ s,
      s <+: nodeCodec.serialize n → s ≠ nodeCodec.serialize n →
        nodeCodec.deserialize s = none) ∧
      (∀ d : Document, documentFormat.Valid d → (documentFormat.put d).length < sizeLimit → ∀ s,
        s <+: documentCodec.serialize d → s ≠ documentCodec.serialize d →
          documentCodec.deserialize s = none) ∧
      ∀ (a : Statics) (bucket : Bucket), bucketFormat.Valid (a, bucket) →
        (bucketFormat.put (a, bucket)).length < sizeLimit → ∀ s,
          s <+: cereal.serialize a bucket → s ≠ cereal.serialize a bucket →
            cereal.deserialize s = none := by
  refine ⟨?_, ?_, ?_⟩
  · intro n hn hlen s hs hne
    exact read_cut node_exact nodeFormat_no_mark hn hlen hs hne
  · intro d hd hlen s hs hne
    exact read_cut document_exact documentFormat_no_mark hd hlen hs hne
  · intro a bucket hvalid hlen s hs hne
    have hread : bucketFormat.read bucketMark s = none :=
      read_cut bucket_describes (fun p _ => bucketFormat_no_mark p) hvalid hlen hs hne
    exact congrArg (Option.map Prod.snd) hread

theorem archive_cut_last_byte :
    nodeCodec.deserialize (nodeCodec.serialize (.ofTag 0 (-1))).dropLast = none ∧
      documentCodec.deserialize (documentCodec.serialize ⟨0, [[97]]⟩).dropLast = none ∧
      cereal.deserialize (cereal.serialize ⟨true, 1⟩ [⟨0, 0, [97]⟩]).dropLast = none := by
  have hcut : ∀ s : Str, s ≠ [] → s.dropLast <+: s ∧ s.dropLast ≠ s := by
    intro s hs
    refine ⟨List.dropLast_prefix s, ?_⟩
    intro heq
    have hlen := congrArg List.length heq
    have hpos := List.length_pos_iff.mpr hs
    rw [List.length_dropLast] at hlen
    omega
  obtain ⟨hnode, hdocument, hbucket⟩ := archive_cut
  refine ⟨?_, ?_, ?_⟩
  · obtain ⟨hpre, hne⟩ := hcut (nodeCodec.serialize (.ofTag 0 (-1))) (by decide)
    exact hnode _ (by decide) (by decide) _ hpre hne
  · obtain ⟨hpre, hne⟩ := hcut (documentCodec.serialize ⟨0, [[97]]⟩) (by decide)
    exact hdocument _ (by decide) (by decide) _ hpre hne
  · obtain ⟨hpre, hne⟩ := hcut (cereal.serialize ⟨true, 1⟩ [⟨0, 0, [97]⟩]) (by decide)
    exact hbucket _ _ (by decide) (by decide) _ hpre hne

end ArchiveReading
