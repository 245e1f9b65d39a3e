import SseSeal.Bytes
import Mathlib.Data.List.TakeWhile
import Mathlib.Data.Nat.Digits.Lemmas

/-! The data of the nodes of the secret index: two decimal numbers around an underscore. -/
namespace IndexStrings

open Bytes

def toDecimal (n : ℕ) : Str :=
  if n = 0 then [48] else ((Nat.digits 10 n).map fun d => UInt8.ofNat (48 + d)).reverse

def isSpace (b : UInt8) : Bool := b = 32 || (9 ≤ b && b ≤ 13)

def isDigit (b : UInt8) : Bool := 48 ≤ b && b ≤ 57

def digitsValue (digits : Str) : ℕ := digits.foldl (fun v b => 10 * v + (b.toNat - 48)) 0

def takeSign : Str → Bool × Str
  | [] => (false, [])
  | b :: s => if b = 45 then (true, s) else if b = 43 then (false, s) else (false, b :: s)

/-- `std::stoul`, which throws where it finds no digit or the number is too large. -/
def stoul (s : Str) : Option ℕ :=
  let (negative, rest) := takeSign (s.dropWhile isSpace)
  let digits := rest.takeWhile isDigit
  if digits = [] ∨ 2 ^ 64 ≤ digitsValue digits then none
  else some (if negative then (2 ^ 64 - digitsValue digits) % 2 ^ 64 else digitsValue digits)

/-- The number in front of a string, the way `strtol` reads it. -/
def signedValue (s : Str) : Option ℤ :=
  let (negative, rest) := takeSign (s.dropWhile isSpace)
  let digits := rest.takeWhile isDigit
  if digits = [] then none
  else some (if negative then -digitsValue digits else digitsValue digits)

/-- What `data()` of a string gives where a C string is expected. -/
def cString (s : Str) : Str := s.takeWhile (· != 0)

/-- `split` at a character: an empty last part is dropped. -/
def split (input : Str) (sep : UInt8) : List Str :=
  let parts := input.splitOn sep
  if 1 < parts.length ∧ parts.getLast? = some [] then parts.dropLast else parts

def underscore : UInt8 := 95

def indexValue (iw cntw : ℕ) : Str := toDecimal iw ++ underscore :: toDecimal cntw

variable {n : ℕ}

theorem toDecimal_digits (n : ℕ) : ∀ b ∈ toDecimal n, 48 ≤ b.toNat ∧ b.toNat ≤ 57 := by
  intro b hb
  rw [toDecimal] at hb
  split at hb
  · rw [List.mem_singleton.mp hb]
    decide
  · obtain ⟨d, hd, rfl⟩ := List.mem_map.mp (List.mem_reverse.mp hb)
    have hlt : d < 10 := Nat.digits_lt_base (by decide) hd
    rw [UInt8.toNat_ofNat']
    omega

theorem toDecimal_ne_nil (n : ℕ) : toDecimal n ≠ [] := by
  rw [toDecimal]
  split
  · simp
  · rename_i hn
    simpa using Nat.digits_ne_nil_iff_ne_zero.mpr hn

theorem toDecimal_length (h : n < 10 ^ 10) : (toDecimal n).length ≤ 10 := by
  rw [toDecimal]
  split
  · decide
  · rw [List.length_reverse, List.length_map]
    exact (Nat.digits_length_le_iff (by decide) n).mpr h

theorem digitsValue_reverse {l : List ℕ} (hl : ∀ d ∈ l, d < 10) :
    digitsValue (l.map fun d => UInt8.ofNat (48 + d)).reverse = Nat.ofDigits 10 l := by
  induction l with
  | nil => rfl
  | cons d l ih =>
    have hd := hl d List.mem_cons_self
    have hbyte : (UInt8.ofNat (48 + d)).toNat - 48 = d := by
      rw [UInt8.toNat_ofNat']
      omega
    have hrest := ih fun e he => hl e (List.mem_cons_of_mem _ he)
    rw [digitsValue] at hrest ⊢
    rw [List.map_cons, List.reverse_cons, List.foldl_append, hrest, List.foldl_cons,
      List.foldl_nil, hbyte, Nat.ofDigits_cons]
    exact Nat.add_comm _ _

theorem digitsValue_toDecimal (n : ℕ) : digitsValue (toDecimal n) = n := by
  rw [toDecimal]
  split
  · rename_i hn
    rw [hn]
    rfl
  · rw [digitsValue_reverse fun d hd => Nat.digits_lt_base (by decide) hd, Nat.ofDigits_digits]

theorem scan_toDecimal (n : ℕ) : takeSign ((toDecimal n).dropWhile isSpace) = (false, toDecimal n) ∧
    (toDecimal n).takeWhile isDigit = toDecimal n := by
  have hdigits := toDecimal_digits n
  obtain ⟨b, s, hcons⟩ := List.exists_cons_of_ne_nil (toDecimal_ne_nil n)
  have hb := hdigits b (hcons ▸ List.mem_cons_self)
  have hspace : (toDecimal n).dropWhile isSpace = toDecimal n := by
    have hno : isSpace b = false := by
      simp only [isSpace, UInt8.le_iff_toNat_le, ← UInt8.toNat_inj]
      simp
      omega
    rw [hcons, List.dropWhile_cons_of_neg (by simp [hno])]
  constructor
  · rw [hspace, hcons, takeSign, if_neg, if_neg]
    · rintro rfl
      revert hb
      decide
    · rintro rfl
      revert hb
      decide
  · apply List.takeWhile_eq_self_iff.mpr
    intro c hc
    have hrange := hdigits c hc
    simp only [isDigit, Bool.and_eq_true, decide_eq_true_eq, UInt8.le_iff_toNat_le]
    exact hrange

theorem stoul_toDecimal (h : n < 2 ^ 64) : stoul (toDecimal n) = some n := by
  obtain ⟨hsign, htake⟩ := scan_toDecimal n
  have hok : ¬ (toDecimal n = [] ∨ 2 ^ 64 ≤ n) := by
    rw [not_or]
    exact ⟨toDecimal_ne_nil n, h.not_ge⟩
  simp only [stoul, hsign, htake, digitsValue_toDecimal, if_neg hok]
  rfl

theorem signedValue_toDecimal (n : ℕ) : signedValue (toDecimal n) = some (n : ℤ) := by
  obtain ⟨hsign, htake⟩ := scan_toDecimal n
  simp only [signedValue, hsign, htake, digitsValue_toDecimal, if_neg (toDecimal_ne_nil n)]
  rfl

theorem toDecimal_injective : Function.Injective toDecimal := by
  intro m n h
  rw [← digitsValue_toDecimal m, h, digitsValue_toDecimal]

theorem cString_toDecimal (n : ℕ) : cString (toDecimal n) = toDecimal n := by
  apply List.takeWhile_eq_self_iff.mpr
  intro b hb
  have hrange := toDecimal_digits n b hb
  rw [bne_iff_ne]
  rintro rfl
  revert hrange
  decide

theorem underscore_notMem (n : ℕ) : underscore ∉ toDecimal n := by
  intro h
  have hrange := toDecimal_digits n _ h
  revert hrange
  decide

theorem split_indexValue (iw cntw : ℕ) :
    split (indexValue iw cntw) underscore = [toDecimal iw, toDecimal cntw] := by
  have hparts : (indexValue iw cntw).splitOn underscore = [toDecimal iw, toDecimal cntw] := by
    have hjoin : indexValue iw cntw =
        [underscore].intercalate [toDecimal iw, toDecimal cntw] := by
      simp [indexValue, List.intercalate, List.intersperse]
    rw [hjoin]
    apply List.splitOn_intercalate
    · intro l hl
      rcases List.mem_pair.mp hl with rfl | rfl
      · exact underscore_notMem iw
      · exact underscore_notMem cntw
    · simp
  rw [split, hparts]
  simp [toDecimal_ne_nil]

end IndexStrings
