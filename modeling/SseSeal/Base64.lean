import SseSeal.Bytes
import Mathlib.Data.List.Basic

/-! `base64_encode` and `base64_decode` with their default arguments: the standard
alphabet, and no line breaks. -/
namespace Base64

open Bytes

def base64Chars : Str :=
  ofAscii "ABCDEFGHIJKLMNOPQRSTUVWXYZabcdefghijklmnopqrstuvwxyz0123456789+/"

def charAt (i : ℕ) : UInt8 := base64Chars.getD i 0

/-- `pos_of_char`, which throws for a byte that is no base64 character. -/
def posOfChar (chr : UInt8) : Option ℕ :=
  if 65 ≤ chr ∧ chr ≤ 90 then some (chr.toNat - 65)
  else if 97 ≤ chr ∧ chr ≤ 122 then some (chr.toNat - 97 + (90 - 65) + 1)
  else if 48 ≤ chr ∧ chr ≤ 57 then some (chr.toNat - 48 + (90 - 65) + (122 - 97) + 2)
  else if chr = 43 ∨ chr = 45 then some 62
  else if chr = 47 ∨ chr = 95 then some 63
  else none

def trailingChar : UInt8 := 61

def base64Encode : Str → Str
  | [] => []
  | [b0] =>
    [charAt ((b0.toNat &&& 0xfc) >>> 2), charAt ((b0.toNat &&& 0x03) <<< 4), trailingChar,
      trailingChar]
  | [b0, b1] =>
    [charAt ((b0.toNat &&& 0xfc) >>> 2),
      charAt (((b0.toNat &&& 0x03) <<< 4) + ((b1.toNat &&& 0xf0) >>> 4)),
      charAt ((b1.toNat &&& 0x0f) <<< 2), trailingChar]
  | b0 :: b1 :: b2 :: rest =>
    charAt ((b0.toNat &&& 0xfc) >>> 2) ::
      charAt (((b0.toNat &&& 0x03) <<< 4) + ((b1.toNat &&& 0xf0) >>> 4)) ::
      charAt (((b1.toNat &&& 0x0f) <<< 2) + ((b2.toNat &&& 0xc0) >>> 6)) ::
      charAt (b2.toNat &&& 0x3f) :: base64Encode rest

def firstByte (p0 p1 : ℕ) : UInt8 := .ofNat ((p0 <<< 2) + ((p1 &&& 0x30) >>> 4))

def secondByte (p1 p2 : ℕ) : UInt8 := .ofNat (((p1 &&& 0x0f) <<< 4) + ((p2 &&& 0x3c) >>> 2))

def thirdByte (p2 p3 : ℕ) : UInt8 := .ofNat (((p2 &&& 0x03) <<< 6) + p3)

/-- `=` or `.`, at which the bytes of a chunk end. -/
def isTrailing (chr : UInt8) : Bool := chr = 61 || chr = 46

/-- The bytes of one chunk; the characters after the first two may be missing or padding. -/
def decodeChunk (c0 c1 : UInt8) (more : Str) : Option Str := do
  let p1 ← posOfChar c1
  let p0 ← posOfChar c0
  match more with
  | [] => return [firstByte p0 p1]
  | c2 :: more =>
    if isTrailing c2 then return [firstByte p0 p1]
    else do
      let p2 ← posOfChar c2
      match more with
      | [] => return [firstByte p0 p1, secondByte p1 p2]
      | c3 :: _ =>
        if isTrailing c3 then return [firstByte p0 p1, secondByte p1 p2]
        else do
          let p3 ← posOfChar c3
          return [firstByte p0 p1, secondByte p1 p2, thirdByte p2 p3]

/-- `base64_decode`, four characters at a time. A chunk of one character is read beyond the
end of the string. -/
def base64Decode : Str → Option Str
  | [] => some []
  | [_] => none
  | [c0, c1] => decodeChunk c0 c1 []
  | [c0, c1, c2] => decodeChunk c0 c1 [c2]
  | c0 :: c1 :: c2 :: c3 :: rest => do
    let bytes ← decodeChunk c0 c1 [c2, c3]
    let more ← base64Decode rest
    return bytes ++ more

theorem charAt_not_trailing : ∀ i < 64, isTrailing (charAt i) = false := by decide +kernel

theorem posOfChar_charAt : ∀ i < 64, posOfChar (charAt i) = some i := by
  decide +kernel

theorem trailingChar_isTrailing : isTrailing trailingChar = true := by decide

/-- The masks and shifts of the encoder, as arithmetic. -/
theorem byte_parts : ∀ b < 256, (b &&& 0xfc) >>> 2 = b / 4 ∧ (b &&& 0x03) <<< 4 = b % 4 * 16 ∧
    (b &&& 0xf0) >>> 4 = b / 16 ∧ (b &&& 0x0f) <<< 2 = b % 16 * 4 ∧
    (b &&& 0xc0) >>> 6 = b / 64 ∧ b &&& 0x3f = b % 64 := by
  decide +kernel

theorem position_parts : ∀ p < 64, p <<< 2 = p * 4 ∧ (p &&& 0x30) >>> 4 = p / 16 ∧
    (p &&& 0x0f) <<< 4 = p % 16 * 16 ∧ (p &&& 0x3c) >>> 2 = p / 4 ∧
    (p &&& 0x03) <<< 6 = p % 4 * 64 := by
  decide +kernel

section Chunk

variable {p0 p1 p2 p3 : ℕ} (h0 : p0 < 64) (h1 : p1 < 64)
include h0 h1

theorem decodeChunk_one (c3 : Str) :
    decodeChunk (charAt p0) (charAt p1) (trailingChar :: c3) = some [firstByte p0 p1] := by
  simp [decodeChunk, posOfChar_charAt p0 h0, posOfChar_charAt p1 h1, trailingChar_isTrailing]

theorem decodeChunk_two (h2 : p2 < 64) :
    decodeChunk (charAt p0) (charAt p1) [charAt p2, trailingChar] =
      some [firstByte p0 p1, secondByte p1 p2] := by
  simp [decodeChunk, posOfChar_charAt p0 h0, posOfChar_charAt p1 h1, posOfChar_charAt p2 h2,
    charAt_not_trailing p2 h2, trailingChar_isTrailing]

theorem decodeChunk_three (h2 : p2 < 64) (h3 : p3 < 64) :
    decodeChunk (charAt p0) (charAt p1) [charAt p2, charAt p3] =
      some [firstByte p0 p1, secondByte p1 p2, thirdByte p2 p3] := by
  simp [decodeChunk, posOfChar_charAt p0 h0, posOfChar_charAt p1 h1, posOfChar_charAt p2 h2,
    posOfChar_charAt p3 h3, charAt_not_trailing p2 h2, charAt_not_trailing p3 h3]

end Chunk

section Positions

variable (b0 b1 b2 : UInt8)

theorem firstByte_eq (high : ℕ) (hh : high < 16) :
    firstByte (b0.toNat / 4) (b0.toNat % 4 * 16 + high) = b0 := by
  have hb := b0.toNat_lt
  obtain ⟨hshift, _⟩ := position_parts (b0.toNat / 4) (by omega)
  obtain ⟨_, h30, _⟩ := position_parts (b0.toNat % 4 * 16 + high) (by omega)
  have hsum : b0.toNat / 4 * 4 + (b0.toNat % 4 * 16 + high) / 16 = b0.toNat := by omega
  rw [firstByte, hshift, h30, hsum, UInt8.ofNat_toNat]

theorem secondByte_eq (low high : ℕ) (hh : high < 4) :
    secondByte (low % 4 * 16 + b1.toNat / 16) (b1.toNat % 16 * 4 + high) = b1 := by
  have hb := b1.toNat_lt
  obtain ⟨_, _, h0f, _⟩ := position_parts (low % 4 * 16 + b1.toNat / 16) (by omega)
  obtain ⟨_, _, _, h3c, _⟩ := position_parts (b1.toNat % 16 * 4 + high) (by omega)
  have hsum : (low % 4 * 16 + b1.toNat / 16) % 16 * 16 + (b1.toNat % 16 * 4 + high) / 4 =
      b1.toNat := by omega
  rw [secondByte, h0f, h3c, hsum, UInt8.ofNat_toNat]

theorem thirdByte_eq (low : ℕ) :
    thirdByte (low % 16 * 4 + b2.toNat / 64) (b2.toNat % 64) = b2 := by
  have hb := b2.toNat_lt
  obtain ⟨_, _, _, _, h03⟩ := position_parts (low % 16 * 4 + b2.toNat / 64) (by omega)
  have hsum : (low % 16 * 4 + b2.toNat / 64) % 4 * 64 + b2.toNat % 64 = b2.toNat := by omega
  rw [thirdByte, h03, hsum, UInt8.ofNat_toNat]

end Positions

theorem base64Decode_base64Encode (s : Str) : base64Decode (base64Encode s) = some s := by
  induction s using base64Encode.induct with
  | case1 => rfl
  | case2 b0 =>
    have hb := b0.toNat_lt
    obtain ⟨hfc, h03, _⟩ := byte_parts b0.toNat hb
    have hbyte := firstByte_eq b0 0 (by decide)
    rw [base64Encode, hfc, h03, base64Decode, decodeChunk_one (by omega) (by omega)]
    simpa [base64Decode] using hbyte
  | case3 b0 b1 =>
    have hb := b0.toNat_lt
    have hb1 := b1.toNat_lt
    obtain ⟨hfc, h03, _⟩ := byte_parts b0.toNat hb
    obtain ⟨_, _, hf0, h0f, _⟩ := byte_parts b1.toNat hb1
    have hbyte0 := firstByte_eq b0 (b1.toNat / 16) (by omega)
    have hbyte1 := secondByte_eq b1 b0.toNat 0 (by decide)
    rw [base64Encode, hfc, h03, hf0, h0f, base64Decode,
      decodeChunk_two (by omega) (by omega) (by omega), hbyte0]
    simpa [base64Decode] using hbyte1
  | case4 b0 b1 b2 rest ih =>
    have hb := b0.toNat_lt
    have hb1 := b1.toNat_lt
    have hb2 := b2.toNat_lt
    obtain ⟨hfc, h03, _⟩ := byte_parts b0.toNat hb
    obtain ⟨_, _, hf0, h0f, _⟩ := byte_parts b1.toNat hb1
    obtain ⟨_, _, _, _, hc0, h3f⟩ := byte_parts b2.toNat hb2
    rw [base64Encode, hfc, h03, hf0, h0f, hc0, h3f, base64Decode,
      decodeChunk_three (by omega) (by omega) (by omega) (by omega), ih,
      firstByte_eq b0 _ (by omega), secondByte_eq b1 _ _ (by omega), thirdByte_eq b2]
    rfl

end Base64
