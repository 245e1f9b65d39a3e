import SseSeal.Bytes

/-! The objects a client exchanges with its oblivious memories, and the
serializer between such an object and the byte string that is stored. -/
namespace Objects

open Bytes

/-- `cereal`, as the client uses it: what was serialized is deserialized unchanged. -/
structure Codec (α : Type) where
  serialize : α → Str
  deserialize : Str → Option α
  roundTrip : ∀ a, deserialize (serialize a) = some a

attribute [simp] Codec.roundTrip

structure ChildrenPos where
  id : ℤ
  posTag : ℤ
  deriving DecidableEq, Repr

/-- `ODict::Node`: a node of the AVL tree, linked to its children by their ids. -/
structure Node where
  data : Str
  id : ℤ
  posTag : ℤ
  oldTag : ℤ := -1
  key : Str
  leftHeight : ℤ
  rightHeight : ℤ
  childrenPos : ChildrenPos × ChildrenPos
  leftId : ℤ := 0
  rightId : ℤ := 0
  deriving DecidableEq, Repr

/-- The constructor `Node(id, pos_tag)`. The heights and the child tags, which it leaves
uninitialised, are zero here; no caller reads them. -/
def Node.ofTag (id posTag : ℤ) : Node :=
  { data := [], id := id, posTag := posTag, key := [], leftHeight := 0, rightHeight := 0,
    childrenPos := (⟨0, 0⟩, ⟨0, 0⟩) }

/-- `new ODict::Node()`: value-initialised, then given the caller's id, key and data. -/
def Node.fresh (id : ℤ) (key data : Str) : Node :=
  { data := data, id := id, posTag := 0, key := key, leftHeight := 0, rightHeight := 0,
    childrenPos := (⟨0, 0⟩, ⟨0, 0⟩) }

structure Document where
  id : ℕ
  keywords : List Str
  deriving DecidableEq, Repr

/-- `Document(id, keywords)` drops the first keyword. -/
def Document.ofTokens (id : ℕ) (tokens : List Str) : Document := ⟨id, tokens.drop 1⟩

def getHeight (node : Node) : ℤ := max node.leftHeight node.rightHeight + 1

inductive OramAccessOp where
  | read
  | write
  | delete
  | insert
  deriving DecidableEq, Repr

inductive Operation where
  | read
  | write
  deriving DecidableEq, Repr

def deductOperation : OramAccessOp → Option Operation
  | .read => some .read
  | .write => some .write
  | _ => none

end Objects
