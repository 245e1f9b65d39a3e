import SseSeal.Base64
import SseSeal.Sm4

/-! `encrypt_SM4_EBC` and `decrypt_SM4_EBC`: SM4 on each block of a padded string, as base64. -/
namespace StringCipher

open Bytes Sm4 Base64

/-- `AES_BLOCK_BYTES`. -/
def blockBytes : ℕ := 16

def getBlocks (unit len : ℕ) : ℕ :=
  if len / unit * unit < len then len / unit + 1 else len / unit

def padding (unit len : ℕ) : ℕ :=
  if getBlocks unit len * unit = len then unit else getBlocks unit len * unit - len

/-- `pad`: zeros, and in the last byte the number of the bytes added. -/
def pad (data : Str) (unit : ℕ) : Str :=
  let padding := padding unit data.length
  data ++ List.replicate (padding - 1) 0 ++ [.ofNat padding]

/-- `unpad` throws for a last byte that counts no bytes or more than a block. A count that
exceeds the length asks for a vector of negative size. -/
def unpad (data : Str) : Option Str :=
  match data.getLast? with
  | none => none
  | some last =>
    if 0 < last.toNat ∧ last.toNat ≤ blockBytes ∧ last.toNat ≤ data.length then
      some (data.take (data.length - last.toNat))
    else none

/-- The iterations of `sm4_crypt_ecb`. One that would read behind its input is undefined, and
what no iteration reaches keeps the zeros of the output vector. -/
def cryptBlocks (sk : List Word) : ℕ → Str → Option Str
  | 0, input => some (List.replicate input.length 0)
  | n + 1, input => do
    if input.length < blockBytes then none
    else
      let rest ← cryptBlocks sk n (input.drop blockBytes)
      return sm4OneRound sk (input.take blockBytes) ++ rest

def sm4CryptEcb (sk : List Word) (length : ℤ) (input : Str) : Option Str :=
  cryptBlocks sk ((length + 15) / 16).toNat input

def intOfSize (n : ℕ) : ℤ := (n : ℤ).bmod (2 ^ 32)

/-- The key bytes a cipher reads through `c_str()`, where a zero follows the string. -/
def keyBytes (rawKey : Str) : Option Str :=
  if rawKey.length + 1 < 16 then none else some ((rawKey ++ [0]).take 16)

def encryptSm4Ebc (ptext rawKey : Str) : Option Str := do
  let ptextBuf := pad ptext blockBytes
  let key ← keyBytes rawKey
  let ctextBuf ← sm4CryptEcb (sm4SetkeyEnc key) (intOfSize ptextBuf.length) ptextBuf
  return base64Encode ctextBuf

def decryptSm4Ebc (ctext rawKey : Str) : Option Str := do
  let ciphertext ← base64Decode ctext
  let key ← keyBytes rawKey
  let ptextBuf ← sm4CryptEcb (sm4SetkeyDec key) (intOfSize ciphertext.length) ciphertext
  unpad ptextBuf

theorem padding_bounds (len : ℕ) : 0 < padding blockBytes len ∧ padding blockBytes len ≤ 16 ∧
    (len + padding blockBytes len) % 16 = 0 := by
  rw [padding, blockBytes]
  have hblocks : len ≤ getBlocks 16 len * 16 ∧ getBlocks 16 len * 16 < len + 16 := by
    rw [getBlocks]
    split <;> omega
  split <;> omega

theorem pad_length (s : Str) :
    (pad s blockBytes).length = s.length + padding blockBytes s.length := by
  obtain ⟨hpos, _⟩ := padding_bounds s.length
  simp only [pad, List.length_append, List.length_replicate, List.length_singleton]
  omega

theorem unpad_pad (s : Str) : unpad (pad s blockBytes) = some s := by
  obtain ⟨hpos, hle, _⟩ := padding_bounds s.length
  have hlast : (pad s blockBytes).getLast? = some (.ofNat (padding blockBytes s.length)) := by
    simp [pad]
  have hcount : (UInt8.ofNat (padding blockBytes s.length)).toNat =
      padding blockBytes s.length := by
    rw [UInt8.toNat_ofNat']
    omega
  have hin : 0 < padding blockBytes s.length ∧ padding blockBytes s.length ≤ blockBytes ∧
      padding blockBytes s.length ≤ (pad s blockBytes).length := by
    rw [pad_length]
    exact ⟨hpos, hle, by omega⟩
  simp only [unpad, hlast, hcount, if_pos hin]
  rw [pad_length, Nat.add_sub_cancel]
  simp [pad, List.append_assoc]

theorem cryptBlocks_total (sk : List Word) {n : ℕ} {input : Str} (h : 16 * n ≤ input.length) :
    ∃ output, cryptBlocks sk n input = some output ∧ output.length = input.length := by
  induction n generalizing input with
  | zero => exact ⟨_, rfl, by simp⟩
  | succ n ih =>
    have hdrop : (input.drop blockBytes).length = input.length - 16 := by
      rw [List.length_drop, blockBytes]
    have hnext : 16 * n ≤ (input.drop blockBytes).length := by omega
    obtain ⟨rest, hrest, hlen⟩ := ih hnext
    have hlong : ¬ input.length < blockBytes := by
      rw [blockBytes]
      omega
    refine ⟨sm4OneRound sk (input.take blockBytes) ++ rest, ?_, ?_⟩
    · simp [cryptBlocks, hlong, hrest]
    · rw [List.length_append, sm4OneRound_length, hlen, hdrop]
      omega

theorem cryptBlocks_dec_enc (key : Str) {n : ℕ} {input output : Str} (h : input.length = 16 * n)
    (hout : cryptBlocks (sm4SetkeyEnc key) n input = some output) :
    cryptBlocks (sm4SetkeyDec key) n output = some input := by
  induction n generalizing input output with
  | zero =>
    have hnil : input = [] := List.eq_nil_of_length_eq_zero h
    subst hnil
    cases hout
    rfl
  | succ n ih =>
    have hdrop : (input.drop blockBytes).length = 16 * n := by
      rw [List.length_drop, blockBytes]
      omega
    have htake : (input.take blockBytes).length = 16 := by
      rw [List.length_take, blockBytes]
      omega
    have hlong : ¬ input.length < blockBytes := by
      rw [blockBytes]
      omega
    obtain ⟨rest, hrest, _⟩ := cryptBlocks_total (sm4SetkeyEnc key) hdrop.ge
    have hcons : output = sm4OneRound (sm4SetkeyEnc key) (input.take blockBytes) ++ rest := by
      simpa [cryptBlocks, hlong, hrest, eq_comm] using hout
    have hblock : (sm4OneRound (sm4SetkeyEnc key) (input.take blockBytes)).length = blockBytes :=
      sm4OneRound_length
    have hundo := sm4OneRound_dec_enc key htake
    subst hcons
    simp [cryptBlocks, hblock, List.take_left' hblock, List.drop_left' hblock, ih hdrop hrest,
      hundo]

theorem intOfSize_eq {n : ℕ} (h : n < 2 ^ 31) : intOfSize n = n := by
  have hlow : -2 ^ 32 ≤ (n : ℤ) * 2 := by omega
  have hhigh : (n : ℤ) * 2 < 2 ^ 32 := by omega
  exact Int.bmod_eq_of_le_mul_two hlow hhigh

theorem iterations_eq {n : ℕ} (h : 16 * n < 2 ^ 31) :
    ((intOfSize (16 * n) + 15) / 16).toNat = n := by
  rw [intOfSize_eq h]
  omega

/-- The strings that survive the ciphers. A longer one fits no message of the server. -/
def Storable (s : Str) : Prop := s.length + blockBytes < 2 ^ 31

theorem sm4CryptEcb_eq (sk : List Word) {n : ℕ} {input : Str} (h : input.length = 16 * n)
    (hn : 16 * n < 2 ^ 31) : sm4CryptEcb sk (intOfSize input.length) input =
      cryptBlocks sk n input := by
  rw [sm4CryptEcb, h, iterations_eq hn]

/-- The ciphers are total on such strings, and decryption gives the string back. -/
theorem decrypt_encrypt {rawKey s : Str} (hkey : 16 ≤ rawKey.length) (hs : Storable s) :
    ∃ c, encryptSm4Ebc s rawKey = some c ∧ decryptSm4Ebc c rawKey = some s := by
  obtain ⟨_, hle, hmod⟩ := padding_bounds s.length
  obtain ⟨n, hn⟩ : ∃ n, (pad s blockBytes).length = 16 * n := by
    rw [pad_length]
    exact Nat.dvd_of_mod_eq_zero hmod
  have hshort : 16 * n < 2 ^ 31 := by
    rw [Storable, blockBytes] at hs
    rw [pad_length] at hn
    omega
  have hbytes : keyBytes rawKey = some ((rawKey ++ [0]).take 16) := if_neg (by omega)
  obtain ⟨output, hout, hsame⟩ := cryptBlocks_total (sm4SetkeyEnc ((rawKey ++ [0]).take 16)) hn.ge
  have hback := cryptBlocks_dec_enc _ hn hout
  refine ⟨base64Encode output, ?_, ?_⟩
  · simp [encryptSm4Ebc, hbytes, sm4CryptEcb_eq _ hn hshort, hout]
  · rw [decryptSm4Ebc, base64Decode_base64Encode, Option.bind_eq_bind, Option.bind_some, hbytes,
      Option.bind_some, sm4CryptEcb_eq _ (hsame.trans hn) hshort, hback, Option.bind_some,
      unpad_pad]

/-- Padding puts at most a block behind a string, and the removal takes off just that. -/
theorem pad_removed (s : Str) : ∃ added, pad s blockBytes = s ++ added ∧ 1 ≤ added.length ∧
    added.length ≤ 16 ∧ unpad (pad s blockBytes) = some s := by
  obtain ⟨hpos, hle, _⟩ := padding_bounds s.length
  have hlen : (List.replicate (padding blockBytes s.length - 1) 0 ++
      [UInt8.ofNat (padding blockBytes s.length)]).length = padding blockBytes s.length := by
    rw [List.length_append, List.length_replicate, List.length_singleton]
    omega
  refine ⟨_, List.append_assoc _ _ _, ?_, ?_, unpad_pad s⟩
  · rw [hlen]
    exact hpos
  · rw [hlen]
    exact hle

/-- Encryption is undone by decryption under the same key, whatever bytes a string has. -/
theorem encryptSm4Ebc_invertible {rawKey s : Str} (hkey : 16 ≤ rawKey.length)
    (hs : s.length < 2 ^ 31 - 16) :
    (∃ c, encryptSm4Ebc s rawKey = some c ∧ decryptSm4Ebc c rawKey = some s) ∧
    ∀ data : Str, ∃ added, pad data blockBytes = data ++ added ∧ 1 ≤ added.length ∧
      added.length ≤ 16 ∧ unpad (pad data blockBytes) = some data := by
  have hstorable : Storable s := by
    rw [Storable, blockBytes]
    omega
  exact ⟨decrypt_encrypt hkey hstorable, pad_removed⟩

theorem encryptSm4Ebc_invertible_zeros :
    (∃ c, encryptSm4Ebc [0, 104, 0] (List.replicate 16 7) = some c ∧
      decryptSm4Ebc c (List.replicate 16 7) = some [0, 104, 0]) ∧
    ∀ data : Str, ∃ added, pad data blockBytes = data ++ added ∧ 1 ≤ added.length ∧
      added.length ≤ 16 ∧ unpad (pad data blockBytes) = some data :=
  encryptSm4Ebc_invertible (by decide) (by decide)

end StringCipher
