import Mathlib.Algebra.GroupWithZero.Nat
import SseSeal.Bytes

/-! Messages of numbered fields, as a generated class writes and reads them with the routines of
its runtime. The bytes of a message are a sequence of records. Each one sets a field, adds to it,
or is kept as an unknown field. -/
namespace MessageFormat

open Bytes

/-- The routines of the runtime. A reader returns what is left of the input, and consumes some of
it where a loop depends on that. -/
structure Runtime (U : Type) where
  readTag : Str → Option (ℕ × Str)
  readVarint64 : Str → Option (ℕ × Str)
  readString : Str → Option (Str × Str)
  unknownFieldParse : ℕ → Str → Option (U × Str)
  writeBool : ℕ → Bool → Str
  writeInt32 : ℕ → ℤ → Str
  writeBytes : ℕ → Str → Str
  writeUnknown : U → Str
  int32SizePlusOne : ℤ → ℕ
  bytesSize : Str → ℕ
  unknownSize : U → ℕ
  /-- The tag that an unknown field was sent with. -/
  unknownTag : U → ℕ
  readTag_lt : ∀ {s tag rest}, readTag s = some (tag, rest) → rest.length < s.length
  readVarint64_le : ∀ {s v rest}, readVarint64 s = some (v, rest) → rest.length ≤ s.length
  readString_lt : ∀ {s v rest}, readString s = some (v, rest) → rest.length < s.length
  unknownFieldParse_le : ∀ {tag s u rest}, unknownFieldParse tag s = some (u, rest) →
    rest.length ≤ s.length

inductive MessageField (α : Type) where
  | bool (number : ℕ) (get : α → Bool) (set : Bool → α → α)
  | int32 (number : ℕ) (get : α → ℤ) (set : ℤ → α → α)
  | bytes (number : ℕ) (get : α → Str) (set : Str → α → α)
  | repeatedBytes (number : ℕ) (get : α → List Str) (add : Str → α → α)

variable {α U : Type}

def MessageField.number : MessageField α → ℕ
  | .bool n _ _ | .int32 n _ _ | .bytes n _ _ | .repeatedBytes n _ _ => n

def MessageField.tag : MessageField α → ℕ
  | .bool n _ _ | .int32 n _ _ => 8 * n
  | .bytes n _ _ | .repeatedBytes n _ _ => 8 * n + 2

/-- The fields of a message, and what it was sent that its class does not know. -/
structure Message (α U : Type) where
  fields : α
  unknownFields : List U
  deriving DecidableEq, Repr

def MessageField.merge (source target : α) : MessageField α → α
  | .bool _ get set => if get source then set (get source) target else target
  | .int32 _ get set => if get source = 0 then target else set (get source) target
  | .bytes _ get set => if get source = [] then target else set (get source) target
  | .repeatedBytes _ get add => (get source).foldl (fun a s => add s a) target

structure MessageClass (α : Type) where
  fields : List (MessageField α)
  default : α
  number_lt : ∀ f ∈ fields, 0 < f.number ∧ f.number < 16
  distinct : (fields.map MessageField.number).Nodup
  copy : ∀ a, fields.foldl (MessageField.merge a) default = a

section Operations

variable (r : Runtime U) (c : MessageClass α)

/-- A field that has its default is left out. -/
def MessageField.serialize (a : α) : MessageField α → Str
  | .bool n get _ => if get a then r.writeBool n true else []
  | .int32 n get _ => if get a = 0 then [] else r.writeInt32 n (get a)
  | .bytes n get _ => if get a = [] then [] else r.writeBytes n (get a)
  | .repeatedBytes n get _ => (get a).flatMap (r.writeBytes n)

def serialize (m : Message α U) : Str :=
  c.fields.flatMap (MessageField.serialize r m.fields) ++ m.unknownFields.flatMap r.writeUnknown

def MessageField.size (a : α) : MessageField α → ℕ
  | .bool _ get _ => if get a then 1 + 1 else 0
  | .int32 _ get _ => if get a = 0 then 0 else r.int32SizePlusOne (get a)
  | .bytes _ get _ => if get a = [] then 0 else 1 + r.bytesSize (get a)
  | .repeatedBytes _ get _ => 1 * (get a).length + ((get a).map r.bytesSize).sum

/-- `ByteSizeLong`, which a buffer is allocated by. -/
def byteSizeLong (m : Message α U) : ℕ :=
  (c.fields.map (MessageField.size r m.fields)).sum + (m.unknownFields.map r.unknownSize).sum

def mergeFrom (target source : Message α U) : Message α U :=
  ⟨c.fields.foldl (MessageField.merge source.fields) target.fields,
    target.unknownFields ++ source.unknownFields⟩

def MessageClass.cleared : Message α U := ⟨c.default, []⟩

def copyFrom (source : Message α U) : Message α U := mergeFrom c c.cleared source

/-- Elements of a repeated field that follow each other are read in a loop of their own, as long
as the next byte is the tag. -/
def repeatedLoop (tag : ℕ) (add : Str → α → α) (a : α) (s : Str) : Option (α × Str) :=
  match _h : r.readString s with
  | none => none
  | some (element, []) => some (add element a, [])
  | some (element, b :: rest) =>
    if b.toNat = tag then repeatedLoop tag add (add element a) rest
    else some (add element a, b :: rest)
termination_by s.length
decreasing_by
  have hlt := r.readString_lt _h
  rw [List.length_cons] at hlt
  omega

def MessageField.parse (a : α) (s : Str) (f : MessageField α) : Option (α × Str) :=
  match f with
  | .bool _ _ set => (r.readVarint64 s).map fun v => (set (v.1 ≠ 0) a, v.2)
  | .int32 _ _ set => (r.readVarint64 s).map fun v => (set ((v.1 : ℤ).bmod (2 ^ 32)) a, v.2)
  | .bytes _ _ set => (r.readString s).map fun v => (set v.1 a, v.2)
  | .repeatedBytes _ _ add => repeatedLoop r f.tag add a s

inductive Step (α U : Type) where
  | next (m : Message α U) (rest : Str)
  | done (m : Message α U) (lastTag : ℕ)

def handleUnusual (m : Message α U) (tag : ℕ) (s : Str) : Option (Step α U) :=
  if tag = 0 ∨ tag % 8 = 4 then some (.done m tag)
  else (r.unknownFieldParse tag s).map fun u =>
    .next { m with unknownFields := m.unknownFields ++ [u.1] } u.2

def parseStep (m : Message α U) (s : Str) : Option (Step α U) :=
  match r.readTag s with
  | none => none
  | some (tag, rest) =>
    match c.fields.find? fun f => f.number = tag / 8 with
    | none => handleUnusual r m tag rest
    | some f =>
      if tag % 256 = f.tag then
        (f.parse r m.fields rest).map fun v => .next { m with fields := v.1 } v.2
      else handleUnusual r m tag rest

variable {r c} {m m' : Message α U} {a a' : α} {s rest : Str} {f : MessageField α} {tag : ℕ}

theorem repeatedLoop_lt {add : Str → α → α}
    (h : repeatedLoop r tag add a s = some (a', rest)) : rest.length < s.length := by
  induction a, s using repeatedLoop.induct r tag add with
  | case1 a s hread =>
    rw [repeatedLoop, hread] at h
    cases h
  | case2 a s element hread =>
    rw [repeatedLoop, hread] at h
    cases h
    exact r.readString_lt hread
  | case3 a s element b tail hread hb ih =>
    rw [repeatedLoop, hread] at h
    have hlt := r.readString_lt hread
    have hrest := ih ((if_pos hb).symm.trans h)
    rw [List.length_cons] at hlt
    omega
  | case4 a s element b tail hread hb =>
    rw [repeatedLoop, hread] at h
    cases (if_neg hb).symm.trans h
    exact r.readString_lt hread

theorem MessageField.parse_le (h : f.parse r a s = some (a', rest)) : rest.length ≤ s.length := by
  cases f with
  | bool n get set =>
    obtain ⟨v, hread, heq⟩ := Option.map_eq_some_iff.mp h
    cases heq
    exact r.readVarint64_le hread
  | int32 n get set =>
    obtain ⟨v, hread, heq⟩ := Option.map_eq_some_iff.mp h
    cases heq
    exact r.readVarint64_le hread
  | bytes n get set =>
    obtain ⟨v, hread, heq⟩ := Option.map_eq_some_iff.mp h
    cases heq
    exact (r.readString_lt hread).le
  | repeatedBytes n get add => exact (repeatedLoop_lt h).le

theorem handleUnusual_le (h : handleUnusual r m tag s = some (.next m' rest)) :
    rest.length ≤ s.length := by
  rw [handleUnusual] at h
  split at h
  · cases h
  · obtain ⟨u, hread, heq⟩ := Option.map_eq_some_iff.mp h
    cases heq
    exact r.unknownFieldParse_le hread

theorem parseStep_lt (h : parseStep r c m s = some (.next m' rest)) :
    rest.length < s.length := by
  rw [parseStep] at h
  split at h
  · cases h
  rename_i tag s' htag
  have hlt := r.readTag_lt htag
  split at h
  · exact (handleUnusual_le h).trans_lt hlt
  split at h
  · obtain ⟨v, hparse, heq⟩ := Option.map_eq_some_iff.mp h
    cases heq
    exact (MessageField.parse_le hparse).trans_lt hlt
  · exact (handleUnusual_le h).trans_lt hlt

variable (r c)

/-- `_InternalParse`: the message at the end of the input or at the tag that ended it. -/
def internalParse (m : Message α U) (s : Str) : Option (Message α U × Option ℕ) :=
  if s = [] then some (m, none)
  else match _h : parseStep r c m s with
    | none => none
    | some (.done m tag) => some (m, some tag)
    | some (.next m rest) => internalParse m rest
termination_by s.length
decreasing_by exact parseStep_lt _h

/-- `ParseFromString`, which takes the whole input or fails. -/
def parseFromString (s : Str) : Option (Message α U) :=
  match internalParse r c c.cleared s with
  | some (m, none) => some m
  | _ => none

end Operations

end MessageFormat
