import SseSeal.StringCipher

/-! What the server learns from the blocks of the strings it stores, and what it can make of
them. Each block is encrypted on its own, with nothing but the key: equal blocks stay equal, and
any sequence of blocks is the ciphertext of the sequence of their plaintexts. -/
namespace CipherBlocks

open Bytes Sm4 Base64 StringCipher

def blockAt (s : Str) (i : ℕ) : Str := (s.drop (blockBytes * i)).take blockBytes

/-- A block of a ciphertext that a client made with a key. -/
structure Seen (rawKey : Str) where
  plain : Str
  cipher : Str
  encrypted : encryptSm4Ebc plain rawKey = some cipher
  storable : Storable plain
  block : ℕ
  block_lt : blockBytes * block < (pad plain blockBytes).length

variable {rawKey s : Str} {sk : List Word} {n i : ℕ} {input output : Str}

def Seen.cipherBlock (b : Seen rawKey) : Str := blockAt ((base64Decode b.cipher).getD []) b.block

def Seen.plainBlock (b : Seen rawKey) : Str := blockAt (pad b.plain blockBytes) b.block

theorem blockAt_length (h : input.length = 16 * n) (hi : i < n) :
    (blockAt input i).length = blockBytes := by
  rw [blockAt, List.length_take, List.length_drop, blockBytes]
  omega

theorem blockAt_succ (s : Str) (i : ℕ) : blockAt s (i + 1) = blockAt (s.drop blockBytes) i := by
  rw [blockAt, blockAt, List.drop_drop, Nat.mul_succ, Nat.add_comm]

/-- The cipher works on each block alone. -/
theorem blockAt_cryptBlocks (h : input.length = 16 * n)
    (hout : cryptBlocks sk n input = some output) (hi : i < n) :
    blockAt output i = sm4OneRound sk (blockAt input i) := by
  induction n generalizing input output i with
  | zero => exact absurd hi (Nat.not_lt_zero i)
  | succ n ih =>
    have hdrop : (input.drop blockBytes).length = 16 * n := by
      rw [List.length_drop, blockBytes]
      omega
    have hlong : ¬ input.length < blockBytes := by
      rw [blockBytes]
      omega
    obtain ⟨rest, hrest, _⟩ := cryptBlocks_total sk hdrop.ge
    have hcons : output = sm4OneRound sk (input.take blockBytes) ++ rest := by
      simpa [cryptBlocks, hlong, hrest, eq_comm] using hout
    subst hcons
    cases i with
    | zero => exact List.take_left' sm4OneRound_length
    | succ i =>
      have hfirst : (sm4OneRound sk (input.take blockBytes)).length = blockBytes :=
        sm4OneRound_length
      rw [blockAt_succ, blockAt_succ, List.drop_left' hfirst]
      exact ih hdrop hrest (Nat.lt_of_succ_lt_succ hi)

theorem length_flatMap {α : Type} (block : α → Str) (hlen : ∀ a, (block a).length = blockBytes)
    (l : List α) : (l.flatMap block).length = 16 * l.length := by
  induction l with
  | nil => rfl
  | cons a l ih =>
    rw [List.flatMap_cons, List.length_append, hlen, ih, List.length_cons, blockBytes]
    omega

theorem cryptBlocks_flatMap {α : Type} (block : α → Str) (hlen : ∀ a, (block a).length = blockBytes)
    (l : List α) : cryptBlocks sk l.length (l.flatMap block) =
      some (l.flatMap fun a => sm4OneRound sk (block a)) := by
  induction l with
  | nil => rfl
  | cons a l ih =>
    have hlong : ¬ ((a :: l).flatMap block).length < blockBytes := by
      rw [List.flatMap_cons, List.length_append, hlen]
      omega
    rw [List.length_cons, cryptBlocks, if_neg hlong, List.flatMap_cons, List.take_left' (hlen a),
      List.drop_left' (hlen a), ih, List.flatMap_cons]
    rfl

theorem pad_blocks (hs : Storable s) :
    ∃ n, (pad s blockBytes).length = 16 * n ∧ 16 * n < 2 ^ 31 := by
  obtain ⟨_, hle, hmod⟩ := padding_bounds s.length
  obtain ⟨n, hn⟩ : ∃ n, (pad s blockBytes).length = 16 * n := by
    rw [pad_length]
    exact Nat.dvd_of_mod_eq_zero hmod
  refine ⟨n, hn, ?_⟩
  rw [Storable, blockBytes] at hs
  rw [pad_length] at hn
  omega

section Key

variable (hkey : 16 ≤ rawKey.length)
include hkey

theorem encrypt_blocks {c : Str} (hs : Storable s) (henc : encryptSm4Ebc s rawKey = some c) :
    ∃ n output, (pad s blockBytes).length = 16 * n ∧ base64Decode c = some output ∧
      cryptBlocks (sm4SetkeyEnc ((rawKey ++ [0]).take 16)) n (pad s blockBytes) =
        some output := by
  obtain ⟨n, hn, hshort⟩ := pad_blocks hs
  have hbytes : keyBytes rawKey = some ((rawKey ++ [0]).take 16) := if_neg (by omega)
  obtain ⟨output, hout, _⟩ := cryptBlocks_total (sm4SetkeyEnc ((rawKey ++ [0]).take 16)) hn.ge
  have hc : c = base64Encode output := by
    simpa [encryptSm4Ebc, hbytes, sm4CryptEcb_eq _ hn hshort, hout, eq_comm] using henc
  refine ⟨n, output, hn, ?_, hout⟩
  rw [hc, base64Decode_base64Encode]

theorem cipherBlock_eq (b : Seen rawKey) :
    b.plainBlock.length = blockBytes ∧
      b.cipherBlock = sm4OneRound (sm4SetkeyEnc ((rawKey ++ [0]).take 16)) b.plainBlock := by
  obtain ⟨n, output, hn, hdecode, hout⟩ := encrypt_blocks hkey b.storable b.encrypted
  have hlt : b.block < n := by
    have hblock := b.block_lt
    rw [hn, blockBytes] at hblock
    omega
  refine ⟨blockAt_length hn hlt, ?_⟩
  rw [Seen.cipherBlock, hdecode, Option.getD_some]
  exact blockAt_cryptBlocks hn hout hlt

theorem decrypted_cipherBlock (b : Seen rawKey) :
    sm4OneRound (sm4SetkeyDec ((rawKey ++ [0]).take 16)) b.cipherBlock = b.plainBlock := by
  obtain ⟨hlen, hb⟩ := cipherBlock_eq hkey b
  rw [hb]
  exact sm4OneRound_dec_enc _ hlen

/-- Two blocks of any ciphertexts under one key are equal if and only if their plaintexts are:
the server sees which blocks of the stored strings are the same. -/
theorem cipherBlock_inj (a b : Seen rawKey) :
    a.cipherBlock = b.cipherBlock ↔ a.plainBlock = b.plainBlock := by
  constructor
  · intro h
    rw [← decrypted_cipherBlock hkey a, h, decrypted_cipherBlock hkey b]
  · intro h
    rw [(cipherBlock_eq hkey a).2, h, (cipherBlock_eq hkey b).2]

end Key

theorem exists_seen (b : UInt8) {i : ℕ} (hi : i < 2) : ∃ a : Seen (List.replicate 16 7),
    a.plain = List.replicate 16 b ∧ a.block = i := by
  have hstorable : Storable (List.replicate 16 b) := by
    rw [Storable, List.length_replicate, blockBytes]
    omega
  have hkey : 16 ≤ (List.replicate 16 (7 : UInt8)).length := by decide
  obtain ⟨c, henc, _⟩ := decrypt_encrypt hkey hstorable
  refine ⟨⟨_, c, henc, hstorable, i, ?_⟩, rfl, rfl⟩
  have hlen : padding blockBytes 16 = 16 := by decide
  rw [pad_length, List.length_replicate, hlen, blockBytes]
  omega

/-- The last blocks of two strings of 16 bytes are both padding. -/
theorem cipherBlock_inj_padding : ∃ a b : Seen (List.replicate 16 7),
    a.plain = List.replicate 16 1 ∧ b.plain = List.replicate 16 2 ∧ a.block = 1 ∧ b.block = 1 ∧
      a.cipherBlock = b.cipherBlock := by
  obtain ⟨a, ha, hia⟩ := exists_seen 1 (i := 1) (by decide)
  obtain ⟨b, hb, hib⟩ := exists_seen 2 (i := 1) (by decide)
  refine ⟨a, b, ha, hb, hia, hib, (cipherBlock_inj (by decide) a b).mpr ?_⟩
  rw [Seen.plainBlock, Seen.plainBlock, ha, hia, hb, hib]
  decide

end CipherBlocks
