import Mathlib.Algebra.Group.Int.Defs
import Mathlib.Algebra.Group.Nat.Defs
import Mathlib.Data.List.Basic
import Mathlib.Logic.Encodable.Basic

/-! Binary archives: a value is written as a byte string and read back from the front
of one. Formats are put together from those of their fields, and a format of the valid
values extends to all values of a type that can be enumerated. -/
namespace BinaryArchive

variable {α β : Type}

structure Format (α : Type) where
  put : α → List UInt8
  get : List UInt8 → Option (α × List UInt8)
  Valid : α → Prop
  get_put : ∀ a rest, Valid a → get (put a ++ rest) = some (a, rest)

def putNat : ℕ → ℕ → List UInt8
  | 0, _ => []
  | w + 1, n => UInt8.ofNat n :: putNat w (n / 256)

def getNat : ℕ → List UInt8 → Option (ℕ × List UInt8)
  | 0, s => some (0, s)
  | _ + 1, [] => none
  | w + 1, b :: s => (getNat w s).map fun r => (b.toNat + 256 * r.1, r.2)

theorem putNat_length (w n : ℕ) : (putNat w n).length = w := by
  induction w generalizing n with
  | zero => rfl
  | succ w ih => rw [putNat, List.length_cons, ih]

theorem getNat_putNat {w n : ℕ} (rest : List UInt8) (h : n < 256 ^ w) :
    getNat w (putNat w n ++ rest) = some (n, rest) := by
  induction w generalizing n with
  | zero =>
    have hz : n = 0 := by simpa using h
    subst hz
    rfl
  | succ w ih =>
    have hdiv : n / 256 < 256 ^ w := Nat.div_lt_of_lt_mul (by rwa [Nat.pow_succ'] at h)
    rw [putNat, List.cons_append, getNat, ih hdiv]
    have hbyte : (UInt8.ofNat n).toNat = n % 256 := by simp
    simp only [Option.map_some, hbyte, Option.some.injEq, Prod.mk.injEq, and_true]
    omega

/-- An unsigned integer of `w` bytes, the lowest byte first. -/
def unsigned (w : ℕ) : Format ℕ where
  put := putNat w
  get := getNat w
  Valid n := n < 256 ^ w
  get_put _ rest h := getNat_putNat rest h

def int32 : Format ℤ where
  put i := putNat 4 (i % 2 ^ 32).toNat
  get s := (getNat 4 s).map fun r => (if r.1 < 2 ^ 31 then (r.1 : ℤ) else r.1 - 2 ^ 32, r.2)
  Valid i := -2 ^ 31 ≤ i ∧ i < 2 ^ 31
  get_put := by
    rintro i rest ⟨hlow, hhigh⟩
    have hlt : (i % 2 ^ 32).toNat < 256 ^ 4 := by omega
    rw [getNat_putNat rest hlt]
    simp only [Option.map_some, Option.some.injEq, Prod.mk.injEq, and_true]
    split <;> omega

def Format.pair (f : Format α) (g : Format β) : Format (α × β) where
  put p := f.put p.1 ++ g.put p.2
  get s := (f.get s).bind fun r => (g.get r.2).map fun t => ((r.1, t.1), t.2)
  Valid p := f.Valid p.1 ∧ g.Valid p.2
  get_put := by
    rintro ⟨a, b⟩ rest ⟨ha, hb⟩
    simp [f.get_put a _ ha, g.get_put b _ hb]

def Format.record (f : Format α) (fields : β → α) (make : α → β)
    (h : ∀ b, make (fields b) = b) : Format β where
  put b := f.put (fields b)
  get s := (f.get s).map fun r => (make r.1, r.2)
  Valid b := f.Valid (fields b)
  get_put b rest hb := by simp [f.get_put _ _ hb, h]

def Format.putAll (f : Format α) : List α → List UInt8
  | [] => []
  | a :: l => f.put a ++ f.putAll l

def Format.getAll (f : Format α) : ℕ → List UInt8 → Option (List α × List UInt8)
  | 0, s => some ([], s)
  | n + 1, s => (f.get s).bind fun r => (f.getAll n r.2).map fun t => (r.1 :: t.1, t.2)

theorem Format.getAll_putAll (f : Format α) {l : List α} (rest : List UInt8)
    (h : ∀ a ∈ l, f.Valid a) : f.getAll l.length (f.putAll l ++ rest) = some (l, rest) := by
  induction l with
  | nil => rfl
  | cons a l ih =>
    have ha := f.get_put a (f.putAll l ++ rest) (h a List.mem_cons_self)
    have hl := ih fun b hb => h b (List.mem_cons_of_mem _ hb)
    simp [putAll, getAll, List.append_assoc, ha, hl]

/-- A sequence, after its length as an integer of `w` bytes. The greatest integer of this
width is no length of a sequence. -/
def Format.sequence (w : ℕ) (f : Format α) : Format (List α) where
  put l := putNat w l.length ++ f.putAll l
  get s := (getNat w s).bind fun r => f.getAll r.1 r.2
  Valid l := l.length < 256 ^ w - 1 ∧ ∀ a ∈ l, f.Valid a
  get_put := by
    rintro l rest ⟨hlen, hl⟩
    rw [List.append_assoc, getNat_putNat _ (by omega)]
    exact f.getAll_putAll rest hl

def byte : Format UInt8 where
  put b := [b]
  get
    | [] => none
    | b :: s => some (b, s)
  Valid _ := True
  get_put _ _ _ := rfl

section Total

variable [Encodable α] (f : Format α) [DecidablePred f.Valid] (mark : List UInt8)

/-- Valid values as their format says; any other value as its number, after a mark. -/
def Format.write (a : α) : List UInt8 :=
  if f.Valid a then f.put a else mark ++ List.replicate (Encodable.encode a) 0

def Format.read (s : List UInt8) : Option α :=
  if mark <+: s then Encodable.decode (s.length - mark.length) else (f.get s).map Prod.fst

theorem Format.read_write (hmark : ∀ a, f.Valid a → ¬ mark <+: f.put a) (a : α) :
    f.read mark (f.write mark a) = some a := by
  by_cases ha : f.Valid a
  · have hget := f.get_put a [] ha
    rw [List.append_nil] at hget
    rw [write, if_pos ha, read, if_neg (hmark a ha), hget]
    rfl
  · rw [write, if_neg ha, read, if_pos (List.prefix_append _ _)]
    simp

end Total

theorem putNat_no_mark {w n : ℕ} {rest : List UInt8} (hn : n < 256 ^ w - 1) :
    ¬ List.replicate w 255 <+: putNat w n ++ rest := by
  intro h
  induction w generalizing n with
  | zero => simp at hn
  | succ w ih =>
    rw [List.replicate_succ, putNat, List.cons_append, List.cons_prefix_cons] at h
    obtain ⟨hbyte, htail⟩ := h
    have hlow : n % 256 = 255 := by
      have := congrArg UInt8.toNat hbyte
      simpa using this.symm
    refine ih ?_ htail
    rw [Nat.pow_succ'] at hn
    omega

end BinaryArchive
