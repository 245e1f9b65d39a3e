import SseSeal.FormatReading
import SseSeal.MessageRecords

/-! The wire format of messages: integers in groups of seven bits, strings behind their length.
Routines that keep to it fit together, groups of unknown fields aside. -/
namespace WireFormat

open Bytes BinaryArchive FormatReading MessageFormat MessageRecords

variable {s t rest : Str} {k v : ℕ}

/-- The lowest seven bits come first, and all bytes but the last have the high bit. -/
def putVarint (v : ℕ) : Str :=
  if v < 128 then [UInt8.ofNat v] else UInt8.ofNat (v % 128 + 128) :: putVarint (v / 128)

def getVarint : ℕ → Str → Option (ℕ × Str)
  | 0, _ => none
  | _ + 1, [] => none
  | k + 1, b :: s =>
    if b.toNat < 128 then some (b.toNat, s)
    else (getVarint k s).map fun v => (b.toNat - 128 + 128 * v.1, v.2)

theorem putVarint_small (h : v < 128) : putVarint v = [UInt8.ofNat v] := by
  rw [putVarint, if_pos h]

theorem getVarint_put (rest : Str) (hk : 0 < k) (hv : v < 128 ^ k) :
    getVarint k (putVarint v ++ rest) = some (v, rest) := by
  induction k generalizing v with
  | zero => cases hk
  | succ k ih =>
    rw [putVarint]
    split
    · rename_i hlt
      have hbyte : (UInt8.ofNat v).toNat = v := by
        rw [UInt8.toNat_ofNat']
        omega
      rw [List.singleton_append, getVarint, hbyte, if_pos hlt]
    · rename_i hge
      have hbyte : (UInt8.ofNat (v % 128 + 128)).toNat = v % 128 + 128 := by
        rw [UInt8.toNat_ofNat']
        omega
      have hdiv : v / 128 < 128 ^ k := Nat.div_lt_of_lt_mul (by rwa [Nat.pow_succ'] at hv)
      have hpos : 0 < k := by
        rcases Nat.eq_zero_or_pos k with rfl | hpos
        · exact absurd hv hge
        · exact hpos
      rw [List.cons_append, getVarint, hbyte, if_neg (by omega), ih hpos hdiv]
      simp only [Option.map_some, Option.some.injEq, Prod.mk.injEq, and_true]
      omega

theorem getVarint_lt (h : getVarint k s = some (v, rest)) : rest.length < s.length := by
  induction k generalizing s v with
  | zero => cases h
  | succ k ih =>
    cases s with
    | nil => cases h
    | cons b s =>
      rw [getVarint] at h
      split at h
      · cases h
        exact Nat.lt_succ_self _
      · obtain ⟨w, hget, heq⟩ := Option.map_eq_some_iff.mp h
        cases heq
        exact (ih hget).trans (Nat.lt_succ_self _)

theorem getVarint_append (h : getVarint k s = some (v, rest)) :
    getVarint k (s ++ t) = some (v, rest ++ t) := by
  induction k generalizing s v with
  | zero => cases h
  | succ k ih =>
    cases s with
    | nil => cases h
    | cons b s =>
      rw [List.cons_append, getVarint]
      rw [getVarint] at h
      split at h
      · rename_i hb
        cases h
        rw [if_pos hb]
      · rename_i hb
        obtain ⟨w, hget, heq⟩ := Option.map_eq_some_iff.mp h
        cases heq
        rw [if_neg hb, ih hget]
        rfl

theorem getNat_append (h : getNat k s = some (v, rest)) :
    getNat k (s ++ t) = some (v, rest ++ t) := by
  obtain ⟨hv, rfl⟩ := getNat_ok h
  rw [List.append_assoc, getNat_putNat _ hv]

theorem getNat_le (h : getNat k s = some (v, rest)) : rest.length ≤ s.length := by
  obtain ⟨_, rfl⟩ := getNat_ok h
  rw [List.length_append]
  exact Nat.le_add_left _ _

def maxSize : ℕ := 2 ^ 31 - 16

def putString (s : Str) : Str := putVarint s.length ++ s

def getString (s : Str) : Option (Str × Str) :=
  (getVarint 5 s).bind fun n =>
    if n.1 < maxSize ∧ n.1 ≤ n.2.length then some (n.2.take n.1, n.2.drop n.1) else none

theorem getString_put (hs : s.length < maxSize) : getString (putString s) = some (s, []) := by
  have hlen : s.length < 128 ^ 5 := hs.trans (by decide)
  rw [getString, putString, getVarint_put s (by decide) hlen, Option.bind_some, if_pos ⟨hs, le_rfl⟩,
    List.take_length, List.drop_length]

theorem getString_ok {a : Str} (h : getString s = some (a, rest)) :
    ∃ n tail, getVarint 5 s = some (n, tail) ∧ (n < maxSize ∧ n ≤ tail.length) ∧
      a = tail.take n ∧ rest = tail.drop n := by
  obtain ⟨⟨n, tail⟩, hget, h⟩ := Option.bind_eq_some_iff.mp h
  split at h
  · rename_i hn
    cases h
    exact ⟨n, tail, hget, hn, rfl, rfl⟩
  · cases h

theorem getString_lt {a : Str} (h : getString s = some (a, rest)) : rest.length < s.length := by
  obtain ⟨n, tail, hget, _, _, rfl⟩ := getString_ok h
  have hlt := getVarint_lt hget
  rw [List.length_drop]
  omega

theorem getString_append {a : Str} (h : getString s = some (a, rest)) :
    getString (s ++ t) = some (a, rest ++ t) := by
  obtain ⟨n, tail, hget, ⟨hmax, hle⟩, rfl, rfl⟩ := getString_ok h
  have hle' : n ≤ (tail ++ t).length := by
    rw [List.length_append]
    omega
  rw [getString, getVarint_append hget, Option.bind_some, if_pos ⟨hmax, hle'⟩,
    List.take_append_of_le_length hle, List.drop_append_of_le_length hle]

inductive Value where
  | varint (v : UInt64)
  | fixed64 (v : UInt64)
  | lengthDelimited (s : Str)
  | fixed32 (v : UInt32)
  deriving DecidableEq, Repr

/-- An unknown field has a number of 29 bits, which is not zero. -/
structure Unknown where
  number : ℕ
  number_lt : 0 < number ∧ number < 2 ^ 29
  value : Value
  deriving DecidableEq, Repr

def Value.wireType : Value → ℕ
  | .varint _ => 0
  | .fixed64 _ => 1
  | .lengthDelimited _ => 2
  | .fixed32 _ => 5

def Unknown.tag (u : Unknown) : ℕ := 8 * u.number + u.value.wireType

def Value.put : Value → Str
  | .varint v => putVarint v.toNat
  | .fixed64 v => putNat 8 v.toNat
  | .lengthDelimited s => putString s
  | .fixed32 v => putNat 4 v.toNat

def Value.get (wireType : ℕ) (s : Str) : Option (Value × Str) :=
  match wireType with
  | 0 => (getVarint 10 s).map fun v => (.varint (UInt64.ofNat v.1), v.2)
  | 1 => (getNat 8 s).map fun v => (.fixed64 (UInt64.ofNat v.1), v.2)
  | 2 => (getString s).map fun v => (.lengthDelimited v.1, v.2)
  | 5 => (getNat 4 s).map fun v => (.fixed32 (UInt32.ofNat v.1), v.2)
  | _ => none

theorem Value.get_put (a : Value) (h : a.put.length < maxSize) :
    Value.get a.wireType a.put = some (a, []) := by
  cases a with
  | varint v =>
    have hv : v.toNat < 128 ^ 10 := v.toNat_lt.trans (by decide)
    have hget := getVarint_put [] (by decide) hv
    rw [List.append_nil] at hget
    simp only [Value.get, Value.wireType, Value.put, hget, Option.map_some, UInt64.ofNat_toNat]
  | fixed64 v =>
    have hget := getNat_putNat (w := 8) [] (v.toNat_lt.trans_le (by decide))
    rw [List.append_nil] at hget
    simp only [Value.get, Value.wireType, Value.put, hget, Option.map_some, UInt64.ofNat_toNat]
  | lengthDelimited s =>
    rw [Value.put, putString, List.length_append] at h
    simp only [Value.get, Value.wireType, Value.put, getString_put (s := s) (by omega),
      Option.map_some]
  | fixed32 v =>
    have hget := getNat_putNat (w := 4) [] (v.toNat_lt.trans_le (by decide))
    rw [List.append_nil] at hget
    simp only [Value.get, Value.wireType, Value.put, hget, Option.map_some, UInt32.ofNat_toNat]

theorem Value.get_cases {wireType : ℕ} {a : Value} (h : Value.get wireType s = some (a, rest)) :
    a.wireType = wireType ∧ rest.length ≤ s.length ∧
      ∀ t, Value.get wireType (s ++ t) = some (a, rest ++ t) := by
  rw [Value.get.eq_def] at h
  split at h
  · obtain ⟨v, hget, heq⟩ := Option.map_eq_some_iff.mp h
    cases heq
    refine ⟨rfl, (getVarint_lt hget).le, ?_⟩
    intro t
    simp only [Value.get, getVarint_append hget, Option.map_some]
  · obtain ⟨v, hget, heq⟩ := Option.map_eq_some_iff.mp h
    cases heq
    refine ⟨rfl, getNat_le hget, ?_⟩
    intro t
    simp only [Value.get, getNat_append hget, Option.map_some]
  · obtain ⟨v, hget, heq⟩ := Option.map_eq_some_iff.mp h
    cases heq
    refine ⟨rfl, (getString_lt hget).le, ?_⟩
    intro t
    simp only [Value.get, getString_append hget, Option.map_some]
  · obtain ⟨v, hget, heq⟩ := Option.map_eq_some_iff.mp h
    cases heq
    refine ⟨rfl, getNat_le hget, ?_⟩
    intro t
    simp only [Value.get, getNat_append hget, Option.map_some]
  · cases h

def getUnknown (tag : ℕ) (s : Str) : Option (Unknown × Str) :=
  if h : 0 < tag / 8 ∧ tag / 8 < 2 ^ 29 then
    (Value.get (tag % 8) s).map fun a => (⟨tag / 8, h, a.1⟩, a.2)
  else none

theorem getUnknown_ok {tag : ℕ} {u : Unknown} (h : getUnknown tag s = some (u, rest)) :
    u.tag = tag ∧ rest.length ≤ s.length ∧
      ∀ t, getUnknown tag (s ++ t) = some (u, rest ++ t) := by
  rw [getUnknown] at h
  split at h
  · rename_i hnumber
    obtain ⟨a, hget, heq⟩ := Option.map_eq_some_iff.mp h
    cases heq
    obtain ⟨htype, hle, happend⟩ := Value.get_cases hget
    refine ⟨?_, hle, ?_⟩
    · rw [Unknown.tag, htype]
      exact Nat.div_add_mod tag 8
    · intro t
      rw [getUnknown, dif_pos hnumber, happend]
      rfl
  · cases h

theorem Unknown.tag_split (u : Unknown) :
    u.tag / 8 = u.number ∧ u.tag % 8 = u.value.wireType ∧ u.value.wireType ≠ 4 := by
  have hlt : u.value.wireType < 8 ∧ u.value.wireType ≠ 4 := by
    cases u.value <;> simp [Value.wireType]
  rw [Unknown.tag]
  omega

def Unknown.put (u : Unknown) : Str := putVarint u.tag ++ u.value.put

theorem getUnknown_put (u : Unknown) (h : u.value.put.length < maxSize) :
    getUnknown u.tag u.value.put = some (u, []) := by
  obtain ⟨hdiv, hmod, _⟩ := u.tag_split
  rw [getUnknown, hdiv, hmod, dif_pos u.number_lt, Value.get_put u.value h]
  rfl

/-- Integers are written with their sign extended to 64 bits. -/
def putInt32 (i : ℤ) : Str := putVarint (i % 2 ^ 64).toNat

def wire : Runtime Unknown where
  readTag s := (getVarint 5 s).map fun v => (v.1 % 2 ^ 32, v.2)
  readVarint64 s := (getVarint 10 s).map fun v => (v.1 % 2 ^ 64, v.2)
  readString := getString
  unknownFieldParse := getUnknown
  writeBool n b := putVarint (8 * n) ++ [if b then 1 else 0]
  writeInt32 n i := putVarint (8 * n) ++ putInt32 i
  writeBytes n s := putVarint (8 * n + 2) ++ putString s
  writeUnknown := Unknown.put
  int32SizePlusOne i := 1 + (putInt32 i).length
  bytesSize s := (putString s).length
  unknownSize u := u.put.length
  unknownTag := Unknown.tag
  readTag_lt h := by
    obtain ⟨v, hget, heq⟩ := Option.map_eq_some_iff.mp h
    cases heq
    exact getVarint_lt hget
  readVarint64_le h := by
    obtain ⟨v, hget, heq⟩ := Option.map_eq_some_iff.mp h
    cases heq
    exact (getVarint_lt hget).le
  readString_lt := getString_lt
  unknownFieldParse_le h := (getUnknown_ok h).2.1

theorem readVarint64_put (h : v < 2 ^ 64) : wire.readVarint64 (putVarint v) = some (v, []) := by
  have hget := getVarint_put [] (by decide) (h.trans (by decide : _ < 128 ^ 10))
  rw [List.append_nil] at hget
  simp only [wire, hget, Option.map_some, Nat.mod_eq_of_lt h]

theorem readTag_put (rest : Str) (h : v < 2 ^ 32) :
    wire.readTag (putVarint v ++ rest) = some (v, rest) := by
  have hget := getVarint_put rest (by decide) (h.trans (by decide : _ < 128 ^ 5))
  simp only [wire, hget, Option.map_some, Nat.mod_eq_of_lt h]

theorem wire_lawful : Runtime.Lawful wire maxSize where
  readsTags b s _ hb := by
    have hput := readTag_put (v := b.toNat) s (by omega)
    rw [putVarint_small hb, UInt8.ofNat_toNat] at hput
    exact hput
  readTag s v rest t _ h := by
    obtain ⟨w, hget, heq⟩ := Option.map_eq_some_iff.mp h
    cases heq
    simp only [wire, getVarint_append hget, Option.map_some]
  readVarint64 s v rest t _ h := by
    obtain ⟨w, hget, heq⟩ := Option.map_eq_some_iff.mp h
    cases heq
    simp only [wire, getVarint_append hget, Option.map_some]
  readString _ _ _ _ _ h := getString_append h
  unknownFieldParse _ _ _ _ t _ h := (getUnknown_ok h).2.2 t
  writeBool n hn := by
    have hread := readVarint64_put (v := 1) (by decide)
    rw [putVarint_small (by decide)] at hread
    refine ⟨[1], 1, ?_, rfl, hread, by decide⟩
    rw [← List.singleton_append, ← putVarint_small (by omega)]
    rfl
  writeInt32 n i hn _ _ := by
    refine ⟨putInt32 i, ?_, rfl, readVarint64_put (by omega)⟩
    rw [← List.singleton_append, ← putVarint_small (by omega)]
    rfl
  writeBytes n s hn hN := by
    have hs : s.length < maxSize := by
      have hlen : (wire.writeBytes n s).length =
          (putVarint (8 * n + 2)).length + ((putVarint s.length).length + s.length) := by
        rw [← List.length_append, ← List.length_append]
        rfl
      omega
    refine ⟨putString s, ?_, rfl, getString_put hs⟩
    rw [← List.singleton_append, ← putVarint_small (by omega)]
    rfl
  writeUnknown u hN := by
    have hlen : (wire.writeUnknown u).length = (putVarint u.tag).length + u.value.put.length :=
      List.length_append
    have htag : u.tag < 2 ^ 32 := by
      have hnumber := u.number_lt
      have hsplit := u.tag_split
      omega
    exact ⟨u.value.put, readTag_put _ htag, getUnknown_put u (by omega), rfl⟩
  unknownTag u := by
    obtain ⟨hdiv, hmod, hne⟩ := u.tag_split
    have hnumber := u.number_lt
    change u.tag ≠ 0 ∧ u.tag % 8 ≠ 4
    omega
  unknownTag_parse _ _ _ _ h := (getUnknown_ok h).1

end WireFormat
