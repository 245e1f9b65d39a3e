import SseSeal.StringCipher
import Mathlib.Tactic.NormNum

/-! `decrypt_SM4_EBC` with every access to its buffers checked: the ciphertexts for which it
touches no byte outside them. -/
namespace DecryptionBounds

open Bytes Sm4 Base64
open StringCipher (blockBytes intOfSize cryptBlocks cryptBlocks_total)

/-- How a call stops without a result: with an exception, or at an access outside a buffer. -/
inductive Stop
  | thrown
  | outOfBounds
  deriving DecidableEq, Repr

def sizeSub (a b : ℕ) : ℕ := (a + 2 ^ 64 - b) % 2 ^ 64

def readByte (buffer : Str) (i : ℕ) : Except Stop UInt8 :=
  match buffer[i]? with
  | some b => .ok b
  | none => .error .outOfBounds

def readBytes (buffer : Str) (pos len : ℕ) : Except Stop Str :=
  if pos + len ≤ buffer.length then .ok ((buffer.drop pos).take len) else .error .outOfBounds

def writeBytes (buffer : Str) (pos : ℕ) (bytes : Str) : Except Stop Str :=
  if pos + bytes.length ≤ buffer.length then
    .ok (buffer.take pos ++ bytes ++ buffer.drop (pos + bytes.length))
  else .error .outOfBounds

/-- `sm4_crypt_ecb`, whose pointers are both `pos` bytes into their buffers. -/
def sm4CryptEcb (sk : List Word) (length : ℤ) (pos : ℕ) (input output : Str) : Except Stop Str :=
  if 0 < length then do
    let block ← readBytes input pos 16
    let output ← writeBytes output pos (sm4OneRound sk block)
    sm4CryptEcb sk (length - 16) (pos + 16) input output
  else .ok output
termination_by length.toNat

/-- `unpad`. A vector of more than `2 ^ 63 - 1` bytes throws. -/
def unpad (data : Str) : Except Stop Str := do
  let len := data.length
  let last ← readByte data (sizeSub len 1)
  let padCount := last.toNat
  let actualLen := sizeSub len padCount
  if ¬ (0 < padCount ∧ padCount ≤ blockBytes) then .error .thrown
  else if 2 ^ 63 ≤ actualLen then .error .thrown
  else readBytes data 0 actualLen

def decoded (ctext : Str) : Except Stop Str :=
  match base64Decode ctext with
  | some ciphertext => .ok ciphertext
  | none => .error .thrown

/-- `decrypt_SM4_EBC`, whose key is followed by a zero. -/
def decryptSm4Ebc (ctext rawKey : Str) : Except Stop Str := do
  let ciphertext ← decoded ctext
  let key ← readBytes (rawKey ++ [0]) 0 16
  let ptextBuf ← sm4CryptEcb (sm4SetkeyDec key) (intOfSize ciphertext.length) 0 ciphertext
    (List.replicate ciphertext.length 0)
  unpad ptextBuf

variable {sk : List Word} {input output data : Str} {n pos : ℕ}

theorem cryptBlocks_none (h : input.length < 16 * n) : cryptBlocks sk n input = none := by
  induction n generalizing input with
  | zero => omega
  | succ n ih =>
    rw [cryptBlocks]
    by_cases hshort : input.length < blockBytes
    · rw [if_pos hshort]
    · have hdrop : (input.drop blockBytes).length < 16 * n := by
        rw [blockBytes] at hshort ⊢
        rw [List.length_drop]
        omega
      rw [if_neg hshort, ih hdrop]
      rfl

theorem sm4CryptEcb_eq (sk : List Word) {length : ℤ} (hlen : ((length + 15) / 16).toNat = n)
    {done : Str} (hle : done.length ≤ input.length) :
    sm4CryptEcb sk length done.length input
        (done ++ List.replicate (input.length - done.length) 0) =
      match cryptBlocks sk n (input.drop done.length) with
      | some rest => .ok (done ++ rest)
      | none => .error .outOfBounds := by
  induction n generalizing length done with
  | zero =>
    rw [sm4CryptEcb, if_neg (by omega), cryptBlocks, List.length_drop]
  | succ n ih =>
    rw [sm4CryptEcb, if_pos (by omega), cryptBlocks, List.length_drop, blockBytes]
    by_cases hshort : done.length + 16 ≤ input.length
    · have hblock : (sm4OneRound sk ((input.drop done.length).take 16)).length = 16 :=
        sm4OneRound_length
      have hread : readBytes input done.length 16 = .ok ((input.drop done.length).take 16) :=
        if_pos hshort
      have hsplit : List.replicate (input.length - done.length) (0 : UInt8) =
          List.replicate 16 0 ++ List.replicate (input.length - (done.length + 16)) 0 := by
        rw [List.replicate_append_replicate]
        congr 1
        omega
      have hwrite : writeBytes (done ++ List.replicate (input.length - done.length) 0) done.length
          (sm4OneRound sk ((input.drop done.length).take 16)) =
            .ok (done ++ sm4OneRound sk ((input.drop done.length).take 16) ++
              List.replicate (input.length - (done.length + 16)) 0) := by
        rw [writeBytes, hblock, if_pos (by simp; omega), List.take_left, hsplit,
          ← List.append_assoc, List.drop_left' (by simp)]
      have hlen' : ((length - 16 + 15) / 16).toNat = n := by omega
      have hle' : (done ++ sm4OneRound sk ((input.drop done.length).take 16)).length ≤
          input.length := by
        rw [List.length_append, hblock]
        exact hshort
      have hnext := ih hlen' hle'
      rw [List.length_append, hblock] at hnext
      rw [if_neg (by omega), List.drop_drop, hread]
      change (writeBytes _ _ _ >>= _) = _
      rw [hwrite]
      refine hnext.trans ?_
      cases cryptBlocks sk n (input.drop (done.length + 16)) with
      | none => rfl
      | some rest => simp
    · rw [if_pos (by omega), readBytes, if_neg hshort]
      rfl

theorem readByte_last (h : data ≠ []) :
    ∃ last, readByte data (sizeSub data.length 1) = .ok last := by
  have hlen := List.length_pos_iff.mpr h
  have hin : sizeSub data.length 1 < data.length := by
    rw [sizeSub]
    omega
  exact ⟨data[sizeSub data.length 1], by rw [readByte, List.getElem?_eq_getElem hin]⟩

theorem unpad_outOfBounds : unpad data = .error .outOfBounds ↔ data = [] := by
  constructor
  · intro h
    by_contra hne
    obtain ⟨last, hlast⟩ := readByte_last hne
    rw [unpad, hlast] at h
    change ite _ _ _ = _ at h
    by_cases hcount : 0 < last.toNat ∧ last.toNat ≤ blockBytes
    · rw [if_neg (not_not.mpr hcount)] at h
      rw [blockBytes] at hcount
      by_cases hhuge : 2 ^ 63 ≤ sizeSub data.length last.toNat
      · rw [if_pos hhuge] at h
        cases h
      · -- a count beyond the length asks for a vector that is too long
        have hin : 0 + sizeSub data.length last.toNat ≤ data.length := by
          rw [sizeSub] at hhuge ⊢
          omega
        rw [if_neg hhuge, readBytes, if_pos hin] at h
        cases h
    · rw [if_pos hcount] at h
      cases h
  · rintro rfl
    rfl

theorem unpad_eq (h : data.length < 2 ^ 63) : (unpad data).toOption = StringCipher.unpad data := by
  cases hlast : data.getLast? with
  | none =>
    rw [List.getLast?_eq_none_iff] at hlast
    subst hlast
    rfl
  | some last =>
    have hne : data ≠ [] := by
      rintro rfl
      cases hlast
    have hpos := List.length_pos_iff.mpr hne
    have hindex : sizeSub data.length 1 = data.length - 1 := by
      rw [sizeSub]
      omega
    have hread : readByte data (sizeSub data.length 1) = .ok last := by
      rw [List.getLast?_eq_getElem?] at hlast
      rw [readByte, hindex, hlast]
    have hbyte := last.toNat_lt
    rw [unpad, hread, StringCipher.unpad, hlast]
    change Except.toOption (ite _ _ _) = _
    by_cases hcount : 0 < last.toNat ∧ last.toNat ≤ blockBytes
    · rw [if_neg (not_not.mpr hcount)]
      by_cases hin : last.toNat ≤ data.length
      · have hactual : sizeSub data.length last.toNat = data.length - last.toNat := by
          rw [sizeSub]
          omega
        simp only [hactual]
        rw [if_neg (by omega), readBytes, if_pos (by omega), if_pos ⟨hcount.1, hcount.2, hin⟩]
        rfl
      · have hhuge : 2 ^ 63 ≤ sizeSub data.length last.toNat := by
          rw [sizeSub]
          omega
        simp only [if_pos hhuge]
        rw [if_neg fun h => hin h.2.2]
        rfl
    · have hno : ¬ (0 < last.toNat ∧ last.toNat ≤ blockBytes ∧ last.toNat ≤ data.length) :=
        fun h => hcount ⟨h.1, h.2.1⟩
      simp only [if_pos hcount, if_neg hno]
      rfl

/-- The blocks of the loop are in the ciphertext. A length of `2 ^ 31` and more is cut off when
it becomes an `int`. -/
theorem iterations_le_iff (n : ℕ) :
    16 * ((intOfSize n + 15) / 16).toNat ≤ n ↔ 16 ∣ n ∨ 2 ^ 31 ≤ n := by
  by_cases hn : n < 2 ^ 31
  · rw [StringCipher.intOfSize_eq hn]
    omega
  · have hbmod : intOfSize n < 2 ^ 31 := by
      have hpos : 0 < 2 ^ 32 := by norm_num
      exact lt_of_lt_of_le (Int.bmod_lt hpos) (by norm_num)
    omega

variable {ctext rawKey ciphertext : Str}

theorem decryptSm4Ebc_eq (hkey : 16 ≤ rawKey.length) (hc : base64Decode ctext = some ciphertext) :
    decryptSm4Ebc ctext rawKey =
      match cryptBlocks (sm4SetkeyDec ((rawKey ++ [0]).take 16))
        ((intOfSize ciphertext.length + 15) / 16).toNat ciphertext with
      | some ptextBuf => unpad ptextBuf
      | none => .error .outOfBounds := by
  have hread : readBytes (rawKey ++ [0]) 0 16 = .ok ((rawKey ++ [0]).take 16) := by
    rw [readBytes, if_pos (by rw [List.length_append]; omega), List.drop_zero]
  have hlen : ((intOfSize ciphertext.length + 15) / 16).toNat =
      ((intOfSize ciphertext.length + 15) / 16).toNat := rfl
  have hle : ([] : Str).length ≤ ciphertext.length := Nat.zero_le _
  have hloop := sm4CryptEcb_eq (sm4SetkeyDec ((rawKey ++ [0]).take 16)) hlen hle
  rw [List.nil_append, List.length_nil, Nat.sub_zero, List.drop_zero] at hloop
  have hok : ∀ {α β : Type} (a : α) (f : α → Except Stop β), (Except.ok a >>= f) = f a :=
    fun _ _ => rfl
  have hdecoded : decoded ctext = .ok ciphertext := by rw [decoded, hc]
  rw [decryptSm4Ebc, hdecoded, hok, hread, hok, hloop]
  generalize cryptBlocks (sm4SetkeyDec ((rawKey ++ [0]).take 16))
    ((intOfSize ciphertext.length + 15) / 16).toNat ciphertext = blocks
  cases blocks with
  | none => rfl
  | some rest => rfl

theorem decryptSm4Ebc_toOption (hkey : 16 ≤ rawKey.length)
    (hshort : ∀ ciphertext, base64Decode ctext = some ciphertext → ciphertext.length < 2 ^ 63) :
    (decryptSm4Ebc ctext rawKey).toOption = StringCipher.decryptSm4Ebc ctext rawKey := by
  have hbytes : StringCipher.keyBytes rawKey = some ((rawKey ++ [0]).take 16) := if_neg (by omega)
  cases hc : base64Decode ctext with
  | none =>
    have hdecoded : decoded ctext = .error .thrown := by rw [decoded, hc]
    rw [decryptSm4Ebc, hdecoded, StringCipher.decryptSm4Ebc, hc]
    rfl
  | some ciphertext =>
    rw [decryptSm4Ebc_eq hkey hc, StringCipher.decryptSm4Ebc, hc, Option.bind_eq_bind,
      Option.bind_some, hbytes, Option.bind_some, StringCipher.sm4CryptEcb]
    by_cases hin : 16 * ((intOfSize ciphertext.length + 15) / 16).toNat ≤ ciphertext.length
    · obtain ⟨ptextBuf, hloop, hlen⟩ :=
        cryptBlocks_total (sm4SetkeyDec ((rawKey ++ [0]).take 16)) hin
      simp only [hloop, Option.bind_some]
      exact unpad_eq (hlen.trans_lt (hshort ciphertext hc))
    · rw [cryptBlocks_none (not_le.mp hin)]
      rfl

/-- Decryption throws or returns a string, and stays in its buffers, iff the text is no base64, or
its bytes are full blocks, at least one, or are too many for an `int`. -/
theorem decryptSm4Ebc_safe_iff (hkey : 16 ≤ rawKey.length) :
    ((∃ s, decryptSm4Ebc ctext rawKey = .ok s) ∨ decryptSm4Ebc ctext rawKey = .error .thrown) ↔
      ∀ ciphertext, base64Decode ctext = some ciphertext →
        ciphertext ≠ [] ∧ (16 ∣ ciphertext.length ∨ 2 ^ 31 ≤ ciphertext.length) := by
  have hsafe : ((∃ s, decryptSm4Ebc ctext rawKey = .ok s) ∨
      decryptSm4Ebc ctext rawKey = .error .thrown) ↔
        decryptSm4Ebc ctext rawKey ≠ .error .outOfBounds := by
    cases decryptSm4Ebc ctext rawKey with
    | ok s => simp
    | error stop => cases stop <;> simp
  rw [hsafe]
  cases hc : base64Decode ctext with
  | none =>
    have hthrown : decryptSm4Ebc ctext rawKey = .error .thrown := by
      have hdecoded : decoded ctext = .error .thrown := by rw [decoded, hc]
      rw [decryptSm4Ebc, hdecoded]
      rfl
    simp [hthrown]
  | some ciphertext =>
    have hiff : decryptSm4Ebc ctext rawKey ≠ .error .outOfBounds ↔
        ciphertext ≠ [] ∧ (16 ∣ ciphertext.length ∨ 2 ^ 31 ≤ ciphertext.length) := by
      rw [decryptSm4Ebc_eq hkey hc, ← iterations_le_iff]
      by_cases hin : 16 * ((intOfSize ciphertext.length + 15) / 16).toNat ≤ ciphertext.length
      · obtain ⟨ptextBuf, hloop, hlen⟩ :=
          cryptBlocks_total (sm4SetkeyDec ((rawKey ++ [0]).take 16)) hin
        have hempty : ptextBuf = [] ↔ ciphertext = [] := by
          rw [← List.length_eq_zero_iff, hlen, List.length_eq_zero_iff]
        simp only [hloop]
        rw [ne_eq, unpad_outOfBounds, hempty]
        exact (and_iff_left hin).symm
      · rw [cryptBlocks_none (not_le.mp hin)]
        simp [hin]
    rw [hiff]
    constructor
    · intro h c hsome
      cases hsome
      exact h
    · intro h
      exact h ciphertext rfl

theorem decryptSm4Ebc_safe_block :
    (∃ s, decryptSm4Ebc (base64Encode (List.replicate 16 0)) (List.replicate 16 7) = .ok s) ∨
      decryptSm4Ebc (base64Encode (List.replicate 16 0)) (List.replicate 16 7) = .error .thrown :=
  (decryptSm4Ebc_safe_iff (by decide)).mpr (by
    intro ciphertext hc
    rw [base64Decode_base64Encode] at hc
    cases hc
    exact ⟨by decide, Or.inl (by decide)⟩)

/-- The empty string has no last byte, and `AAAA` has three bytes where a block has 16. -/
theorem decryptSm4Ebc_unsafe :
    decryptSm4Ebc [] (List.replicate 16 7) = .error .outOfBounds ∧
      decryptSm4Ebc [65, 65, 65, 65] (List.replicate 16 7) = .error .outOfBounds := by
  constructor
  · have hempty : base64Decode [] = some [] := rfl
    rw [decryptSm4Ebc_eq (by decide) hempty]
    rfl
  · have hthree : base64Decode [65, 65, 65, 65] = some [0, 0, 0] := rfl
    rw [decryptSm4Ebc_eq (by decide) hthree, cryptBlocks_none (by decide)]

end DecryptionBounds
