import SseSeal.BinaryArchive
import SseSeal.Objects
import Mathlib.Algebra.GroupWithZero.Nat
import Mathlib.Logic.Equiv.List

/-! The archives that `cereal` writes for the objects of the client. Integers that fit
their C++ type and strings of any length a machine can hold are written as `cereal` does. -/
namespace ObjectArchive

open Bytes Objects BinaryArchive

instance instEncodableUInt8 : Encodable UInt8 :=
  Encodable.ofLeftInverse UInt8.toNat UInt8.ofNat fun b => by simp

def stringFormat : Format Str := Format.sequence 8 byte

def childrenPosFormat : Format ChildrenPos :=
  (int32.pair int32).record (fun c => (c.id, c.posTag)) (fun r => ⟨r.1, r.2⟩) fun _ => rfl

/-- The fields of a node in the order `Node::serialize` lists them. -/
abbrev NodeFields :=
  Str × ℤ × ℤ × ℤ × Str × ℤ × ℤ × (ChildrenPos × ChildrenPos) × ℤ × ℤ

def nodeFields (n : Node) : NodeFields :=
  (n.data, n.id, n.posTag, n.oldTag, n.key, n.leftHeight, n.rightHeight, n.childrenPos, n.leftId,
    n.rightId)

def nodeOfFields : NodeFields → Node
  | (data, id, posTag, oldTag, key, leftHeight, rightHeight, childrenPos, leftId, rightId) =>
    ⟨data, id, posTag, oldTag, key, leftHeight, rightHeight, childrenPos, leftId, rightId⟩

def nodeFormat : Format Node :=
  (stringFormat.pair (int32.pair (int32.pair (int32.pair (stringFormat.pair (int32.pair
    (int32.pair ((childrenPosFormat.pair childrenPosFormat).pair (int32.pair int32))))))))).record
    nodeFields nodeOfFields fun _ => rfl

def documentFormat : Format Document :=
  ((unsigned 4).pair (stringFormat.sequence 8)).record (fun d => (d.id, d.keywords))
    (fun r => ⟨r.1, r.2⟩) fun _ => rfl

instance : DecidablePred stringFormat.Valid := fun s =>
  decidable_of_iff (s.length < 256 ^ 8 - 1) ⟨fun h => ⟨h, fun _ _ => trivial⟩, And.left⟩

instance : DecidablePred int32.Valid := fun i =>
  inferInstanceAs (Decidable (-2 ^ 31 ≤ i ∧ i < 2 ^ 31))

instance : DecidablePred childrenPosFormat.Valid := fun c =>
  inferInstanceAs (Decidable (int32.Valid c.id ∧ int32.Valid c.posTag))

instance : DecidablePred nodeFormat.Valid := fun n =>
  inferInstanceAs (Decidable (stringFormat.Valid n.data ∧ int32.Valid n.id ∧
    int32.Valid n.posTag ∧ int32.Valid n.oldTag ∧ stringFormat.Valid n.key ∧
    int32.Valid n.leftHeight ∧ int32.Valid n.rightHeight ∧
    (childrenPosFormat.Valid n.childrenPos.1 ∧ childrenPosFormat.Valid n.childrenPos.2) ∧
    int32.Valid n.leftId ∧ int32.Valid n.rightId))

instance : DecidablePred documentFormat.Valid := fun d =>
  inferInstanceAs (Decidable (d.id < 256 ^ 4 ∧ d.keywords.length < 256 ^ 8 - 1 ∧
    ∀ k ∈ d.keywords, stringFormat.Valid k))

instance : Encodable ChildrenPos :=
  Encodable.ofLeftInverse (fun c => (c.id, c.posTag)) (fun r => ⟨r.1, r.2⟩) fun _ => rfl

instance : Encodable Node := Encodable.ofLeftInverse nodeFields nodeOfFields fun _ => rfl

instance : Encodable Document :=
  Encodable.ofLeftInverse (fun d => (d.id, d.keywords)) (fun r => ⟨r.1, r.2⟩) fun _ => rfl

/-- No valid node starts like this: its first eight bytes are the length of a string. -/
def nodeMark : Str := List.replicate 8 255

def documentMark : Str := List.replicate (4 + 8) 255

theorem nodeFormat_no_mark (n : Node) (h : nodeFormat.Valid n) :
    ¬ nodeMark <+: nodeFormat.put n := by
  have hlen : n.data.length < 256 ^ 8 - 1 := h.1.1
  have hput : ∃ rest, nodeFormat.put n = putNat 8 n.data.length ++ rest :=
    ⟨_, List.append_assoc _ _ _⟩
  obtain ⟨rest, hput⟩ := hput
  rw [hput]
  exact putNat_no_mark hlen

theorem documentFormat_no_mark (d : Document) (h : documentFormat.Valid d) :
    ¬ documentMark <+: documentFormat.put d := by
  intro hmark
  have hdrop := hmark.drop 4
  exact putNat_no_mark h.2.1 hdrop

def nodeCodec : Codec Node where
  serialize := nodeFormat.write nodeMark
  deserialize := nodeFormat.read nodeMark
  roundTrip := nodeFormat.read_write nodeMark nodeFormat_no_mark

def documentCodec : Codec Document where
  serialize := documentFormat.write documentMark
  deserialize := documentFormat.read documentMark
  roundTrip := documentFormat.read_write documentMark documentFormat_no_mark

theorem documentCodec_serialize {d : Document} (h : documentFormat.Valid d) :
    documentCodec.serialize d = documentFormat.put d := if_pos h

theorem putAll_length {α : Type} {f : Format α} {size : α → ℕ} (h : ∀ a, (f.put a).length = size a)
    (l : List α) : (f.putAll l).length = (l.map size).sum := by
  induction l with
  | nil => rfl
  | cons a l ih => rw [Format.putAll, List.length_append, h, ih, List.map_cons, List.sum_cons]

theorem stringFormat_length (s : Str) : (stringFormat.put s).length = 8 + s.length := by
  have hbytes : (byte.putAll s).length = (s.map fun _ => 1).sum := putAll_length (fun _ => rfl) s
  change (putNat 8 s.length ++ byte.putAll s).length = _
  rw [List.length_append, putNat_length, hbytes]
  simp

theorem documentCodec_length {d : Document} (h : documentFormat.Valid d) :
    (documentCodec.serialize d).length = 12 + (d.keywords.map fun k => 8 + k.length).sum := by
  rw [documentCodec_serialize h]
  change (putNat 4 d.id ++
    (putNat 8 d.keywords.length ++ stringFormat.putAll d.keywords)).length = _
  rw [List.length_append, List.length_append, putNat_length, putNat_length,
    putAll_length stringFormat_length]
  omega

end ObjectArchive
