import SseSeal.Bytes
import SseSeal.Feistel
import Mathlib.Data.List.GetD

/-! The block cipher SM4. A word is an `unsigned long` of 64 bits of which the low 32 count:
the rotation macro leaves bits above them, and every use of a word cuts them off. -/
namespace Sm4

open Bytes Feistel

abbrev Word := BitVec 64

def sboxTable : List ℕ :=
  [0xd6, 0x90, 0xe9, 0xfe, 0xcc, 0xe1, 0x3d, 0xb7, 0x16, 0xb6, 0x14, 0xc2, 0x28, 0xfb, 0x2c, 0x05,
   0x2b, 0x67, 0x9a, 0x76, 0x2a, 0xbe, 0x04, 0xc3, 0xaa, 0x44, 0x13, 0x26, 0x49, 0x86, 0x06, 0x99,
   0x9c, 0x42, 0x50, 0xf4, 0x91, 0xef, 0x98, 0x7a, 0x33, 0x54, 0x0b, 0x43, 0xed, 0xcf, 0xac, 0x62,
   0xe4, 0xb3, 0x1c, 0xa9, 0xc9, 0x08, 0xe8, 0x95, 0x80, 0xdf, 0x94, 0xfa, 0x75, 0x8f, 0x3f, 0xa6,
   0x47, 0x07, 0xa7, 0xfc, 0xf3, 0x73, 0x17, 0xba, 0x83, 0x59, 0x3c, 0x19, 0xe6, 0x85, 0x4f, 0xa8,
   0x68, 0x6b, 0x81, 0xb2, 0x71, 0x64, 0xda, 0x8b, 0xf8, 0xeb, 0x0f, 0x4b, 0x70, 0x56, 0x9d, 0x35,
   0x1e, 0x24, 0x0e, 0x5e, 0x63, 0x58, 0xd1, 0xa2, 0x25, 0x22, 0x7c, 0x3b, 0x01, 0x21, 0x78, 0x87,
   0xd4, 0x00, 0x46, 0x57, 0x9f, 0xd3, 0x27, 0x52, 0x4c, 0x36, 0x02, 0xe7, 0xa0, 0xc4, 0xc8, 0x9e,
   0xea, 0xbf, 0x8a, 0xd2, 0x40, 0xc7, 0x38, 0xb5, 0xa3, 0xf7, 0xf2, 0xce, 0xf9, 0x61, 0x15, 0xa1,
   0xe0, 0xae, 0x5d, 0xa4, 0x9b, 0x34, 0x1a, 0x55, 0xad, 0x93, 0x32, 0x30, 0xf5, 0x8c, 0xb1, 0xe3,
   0x1d, 0xf6, 0xe2, 0x2e, 0x82, 0x66, 0xca, 0x60, 0xc0, 0x29, 0x23, 0xab, 0x0d, 0x53, 0x4e, 0x6f,
   0xd5, 0xdb, 0x37, 0x45, 0xde, 0xfd, 0x8e, 0x2f, 0x03, 0xff, 0x6a, 0x72, 0x6d, 0x6c, 0x5b, 0x51,
   0x8d, 0x1b, 0xaf, 0x92, 0xbb, 0xdd, 0xbc, 0x7f, 0x11, 0xd9, 0x5c, 0x41, 0x1f, 0x10, 0x5a, 0xd8,
   0x0a, 0xc1, 0x31, 0x88, 0xa5, 0xcd, 0x7b, 0xbd, 0x2d, 0x74, 0xd0, 0x12, 0xb8, 0xe5, 0xb4, 0xb0,
   0x89, 0x69, 0x97, 0x4a, 0x0c, 0x96, 0x77, 0x7e, 0x65, 0xb9, 0xf1, 0x09, 0xc5, 0x6e, 0xc6, 0x84,
   0x18, 0xf0, 0x7d, 0xec, 0x3a, 0xdc, 0x4d, 0x20, 0x79, 0xee, 0x5f, 0x3e, 0xd7, 0xcb, 0x39, 0x48]

def FK : List Word := [0xa3b1bac6, 0x56aa3350, 0x677d9197, 0xb27022dc]

def CK : List Word :=
  [0x00070e15, 0x1c232a31, 0x383f464d, 0x545b6269, 0x70777e85, 0x8c939aa1, 0xa8afb6bd, 0xc4cbd2d9,
   0xe0e7eef5, 0xfc030a11, 0x181f262d, 0x343b4249, 0x50575e65, 0x6c737a81, 0x888f969d, 0xa4abb2b9,
   0xc0c7ced5, 0xdce3eaf1, 0xf8ff060d, 0x141b2229, 0x30373e45, 0x4c535a61, 0x686f767d, 0x848b9299,
   0xa0a7aeb5, 0xbcc3cad1, 0xd8dfe6ed, 0xf4fb0209, 0x10171e25, 0x2c333a41, 0x484f565d, 0x646b7279]

def getUlongBE (b0 b1 b2 b3 : UInt8) : Word :=
  (b0.toBitVec.setWidth 64 <<< 24) ||| (b1.toBitVec.setWidth 64 <<< 16) |||
    (b2.toBitVec.setWidth 64 <<< 8) ||| b3.toBitVec.setWidth 64

def putUlongBE (n : Word) : Str :=
  [⟨(n >>> 24).setWidth 8⟩, ⟨(n >>> 16).setWidth 8⟩, ⟨(n >>> 8).setWidth 8⟩, ⟨n.setWidth 8⟩]

def shl (x : Word) (n : ℕ) : Word := (x &&& 0xFFFFFFFF) <<< n

def rotl (x : Word) (n : ℕ) : Word := shl x n ||| (x >>> (32 - n))

def sm4Sbox (inch : UInt8) : UInt8 := .ofNat (sboxTable.getD inch.toNat 0)

def substituted (ka : Word) : Word :=
  getUlongBE (sm4Sbox ⟨(ka >>> 24).setWidth 8⟩) (sm4Sbox ⟨(ka >>> 16).setWidth 8⟩)
    (sm4Sbox ⟨(ka >>> 8).setWidth 8⟩) (sm4Sbox ⟨ka.setWidth 8⟩)

def sm4Lt (ka : Word) : Word :=
  let bb := substituted ka
  bb ^^^ rotl bb 2 ^^^ rotl bb 10 ^^^ rotl bb 18 ^^^ rotl bb 24

def sm4F (x0 x1 x2 x3 rk : Word) : Word := x0 ^^^ sm4Lt (x1 ^^^ x2 ^^^ x3 ^^^ rk)

def sm4CalciRK (ka : Word) : Word :=
  let bb := substituted ka
  bb ^^^ rotl bb 13 ^^^ rotl bb 23

def wordAt (buffer : Str) (i : ℕ) : Word :=
  getUlongBE (buffer.getD i 0) (buffer.getD (i + 1) 0) (buffer.getD (i + 2) 0)
    (buffer.getD (i + 3) 0)

def sm4Setkey (key : Str) : List Word :=
  let k := (List.range 4).map fun i => wordAt key (4 * i) ^^^ FK.getD i 0
  let k := (List.range 32).foldl (fun k i => k ++ [k.getD i 0 ^^^
    sm4CalciRK (k.getD (i + 1) 0 ^^^ k.getD (i + 2) 0 ^^^ k.getD (i + 3) 0 ^^^ CK.getD i 0)]) k
  k.drop 4

/-- An iteration of the loop of `sm4_one_round`, which fills `ulbuf[i + 4]`. -/
def sm4Step (sk : List Word) (ulbuf : List Word) (i : ℕ) : List Word :=
  ulbuf ++ [sm4F (ulbuf.getD i 0) (ulbuf.getD (i + 1) 0) (ulbuf.getD (i + 2) 0)
    (ulbuf.getD (i + 3) 0) (sk.getD i 0)]

/-- `sm4_one_round`: all 32 rounds on one block of 16 bytes. -/
def sm4OneRound (sk : List Word) (input : Str) : Str :=
  let ulbuf := (List.range 32).foldl (sm4Step sk)
    [wordAt input 0, wordAt input 4, wordAt input 8, wordAt input 12]
  putUlongBE (ulbuf.getD 35 0) ++ putUlongBE (ulbuf.getD 34 0) ++ putUlongBE (ulbuf.getD 33 0) ++
    putUlongBE (ulbuf.getD 32 0)

def sm4SetkeyEnc (key : Str) : List Word := sm4Setkey key

/-- `SWAP(ctx->sk[i], ctx->sk[31 - i])`. -/
def swapKeys (sk : List Word) (i : ℕ) : List Word :=
  (sk.set i (sk.getD (31 - i) 0)).set (31 - i) (sk.getD i 0)

def sm4SetkeyDec (key : Str) : List Word := (List.range 16).foldl swapKeys (sm4Setkey key)

/-- The bits of a word that count. -/
def low (x : Word) : BitVec 32 := x.setWidth 32

@[simp] theorem low_xor (a b : Word) : low (a ^^^ b) = low a ^^^ low b := by simp [low]

theorem low_setWidth (w : BitVec 32) : low (w.setWidth 64) = w := by
  ext i hi
  simp [low]

theorem byte_low (x : Word) {n : ℕ} (hn : n ≤ 24) :
    (x >>> n).setWidth 8 = ((low x).setWidth 64 >>> n).setWidth 8 := by
  ext i hi
  have h : n + i < 32 := by omega
  simp [low, h]
  omega

theorem putUlongBE_low {x y : Word} (h : low x = low y) : putUlongBE x = putUlongBE y := by
  have hbyte : ∀ n ≤ 24, (x >>> n).setWidth 8 = (y >>> n).setWidth 8 := by
    intro n hn
    rw [byte_low x hn, byte_low y hn, h]
  have hlast : x.setWidth 8 = y.setWidth 8 := by simpa using hbyte 0 (by decide)
  simp only [putUlongBE, hbyte 24 (by decide), hbyte 16 (by decide), hbyte 8 (by decide), hlast]

theorem sm4Lt_low {x y : Word} (h : low x = low y) : sm4Lt x = sm4Lt y := by
  have hput := putUlongBE_low h
  simp only [putUlongBE, List.cons.injEq, and_true] at hput
  obtain ⟨h₁, h₂, h₃, h₄⟩ := hput
  simp only [sm4Lt, substituted, h₁, h₂, h₃, h₄]

theorem low_getUlongBE (x : Word) :
    low (getUlongBE ⟨(x >>> 24).setWidth 8⟩ ⟨(x >>> 16).setWidth 8⟩ ⟨(x >>> 8).setWidth 8⟩
      ⟨x.setWidth 8⟩) = low x := by
  ext i hi
  simp [low, getUlongBE]
  grind

section Bytes

variable (b0 b1 b2 b3 : UInt8)

theorem getUlongBE_byte0 : (getUlongBE b0 b1 b2 b3 >>> 24).setWidth 8 = b0.toBitVec := by
  ext i hi
  simp [getUlongBE]
  grind

theorem getUlongBE_byte1 : (getUlongBE b0 b1 b2 b3 >>> 16).setWidth 8 = b1.toBitVec := by
  ext i hi
  simp [getUlongBE]
  grind

theorem getUlongBE_byte2 : (getUlongBE b0 b1 b2 b3 >>> 8).setWidth 8 = b2.toBitVec := by
  ext i hi
  simp [getUlongBE]
  grind

theorem getUlongBE_byte3 : (getUlongBE b0 b1 b2 b3).setWidth 8 = b3.toBitVec := by
  ext i hi
  simp [getUlongBE]

theorem putUlongBE_getUlongBE : putUlongBE (getUlongBE b0 b1 b2 b3) = [b0, b1, b2, b3] := by
  simp only [putUlongBE, getUlongBE_byte0, getUlongBE_byte1, getUlongBE_byte2, getUlongBE_byte3]

end Bytes

abbrev Half := BitVec 32

def halfF (a b c : Half) (rk : Word) : Half := low (sm4Lt ((a ^^^ b ^^^ c).setWidth 64 ^^^ rk))

theorem halfF_rev (a b c : Half) (rk : Word) : halfF a b c rk = halfF c b a rk := by
  have h : a ^^^ b ^^^ c = c ^^^ b ^^^ a := by
    rw [BitVec.xor_comm (a ^^^ b) c, BitVec.xor_comm a b, BitVec.xor_assoc]
  rw [halfF, halfF, h]

theorem xor_cancel (a b : Half) : a ^^^ b ^^^ b = a := by
  rw [BitVec.xor_assoc, BitVec.xor_self, BitVec.xor_zero]

theorem low_sm4F (x0 x1 x2 x3 rk : Word) :
    low (sm4F x0 x1 x2 x3 rk) = low x0 ^^^ halfF (low x1) (low x2) (low x3) rk := by
  have h : sm4Lt (x1 ^^^ x2 ^^^ x3 ^^^ rk) =
      sm4Lt ((low x1 ^^^ low x2 ^^^ low x3).setWidth 64 ^^^ rk) := by
    apply sm4Lt_low
    rw [low_xor, low_xor, low_xor, low_xor, low_setWidth]
  rw [sm4F, low_xor, h, halfF]

abbrev halfRounds (sk : List Word) (s : Words Half) : Words Half :=
  rounds (fun a b => a ^^^ b) halfF sk s

theorem map_range_getD {α : Type} (l : List α) (d : α) :
    (List.range l.length).map (fun i => l.getD i d) = l := by
  apply List.ext_getElem (by simp)
  intro i hi hi'
  simp [List.getElem?_eq_getElem hi']

theorem sm4Step_rounds (sk : List Word) (a b c d : Word) (n : ℕ) :
    ∃ pre a' b' c' d', (List.range n).foldl (sm4Step sk) [a, b, c, d] = pre ++ [a', b', c', d'] ∧
      pre.length = n ∧ (low a', low b', low c', low d') =
        halfRounds ((List.range n).map fun i => sk.getD i 0) (low a, low b, low c, low d) := by
  induction n with
  | zero => exact ⟨[], a, b, c, d, rfl, rfl, rfl⟩
  | succ n ih =>
    obtain ⟨pre, a', b', c', d', hbuf, hlen, hlow⟩ := ih
    refine ⟨pre ++ [a'], b', c', d', sm4F a' b' c' d' (sk.getD n 0), ?_, by simp [hlen], ?_⟩
    · rw [List.range_succ, List.foldl_append, hbuf]
      simp [sm4Step, ← hlen]
    · rw [List.range_succ, List.map_append]
      calc (low b', low c', low d', low (sm4F a' b' c' d' (sk.getD n 0)))
          = round (fun a b => a ^^^ b) halfF (low a', low b', low c', low d') (sk.getD n 0) := by
            rw [low_sm4F, Feistel.round]
        _ = _ := by
            rw [hlow]
            simp [halfRounds, rounds]

def blockWords (input : Str) : Words Half :=
  (low (wordAt input 0), low (wordAt input 4), low (wordAt input 8), low (wordAt input 12))

def wordBytes (s : Words Half) : Str :=
  putUlongBE (s.1.setWidth 64) ++ putUlongBE (s.2.1.setWidth 64) ++
    putUlongBE (s.2.2.1.setWidth 64) ++ putUlongBE (s.2.2.2.setWidth 64)

theorem sm4OneRound_eq {sk : List Word} (hsk : sk.length = 32) (input : Str) :
    sm4OneRound sk input = wordBytes (rev (halfRounds sk (blockWords input))) := by
  obtain ⟨pre, a, b, c, d, hbuf, hlen, hlow⟩ := sm4Step_rounds sk (wordAt input 0)
    (wordAt input 4) (wordAt input 8) (wordAt input 12) 32
  have hkeys := map_range_getD sk 0
  rw [hsk] at hkeys
  rw [hkeys] at hlow
  have hput : ∀ x : Word, putUlongBE x = putUlongBE ((low x).setWidth 64) :=
    fun x => putUlongBE_low (low_setWidth _).symm
  have hget : ∀ i, 32 ≤ i → (pre ++ [a, b, c, d]).getD i 0 = [a, b, c, d].getD (i - 32) 0 := by
    intro i hi
    rw [List.getD_append_right _ _ _ _ (by omega), hlen]
  have h35 : (pre ++ [a, b, c, d]).getD 35 0 = d := hget 35 (by decide)
  have h34 : (pre ++ [a, b, c, d]).getD 34 0 = c := hget 34 (by decide)
  have h33 : (pre ++ [a, b, c, d]).getD 33 0 = b := hget 33 (by decide)
  have h32 : (pre ++ [a, b, c, d]).getD 32 0 = a := hget 32 (by decide)
  have hout : sm4OneRound sk input =
      putUlongBE d ++ putUlongBE c ++ putUlongBE b ++ putUlongBE a := by
    simp only [sm4OneRound, hbuf, h35, h34, h33, h32]
  rw [hout, blockWords, ← hlow, rev, wordBytes, hput d, hput c, hput b, hput a]

theorem blockWords_wordBytes (s : Words Half) : blockWords (wordBytes s) = s := by
  obtain ⟨a, b, c, d⟩ := s
  simp only [blockWords, wordBytes, wordAt, putUlongBE, List.cons_append, List.nil_append,
    List.getD_cons_zero, List.getD_cons_succ, low_getUlongBE, low_setWidth]

theorem wordBytes_blockWords {input : Str} (h : input.length = 16) :
    wordBytes (blockWords input) = input := by
  have hput : ∀ x : Word, putUlongBE ((low x).setWidth 64) = putUlongBE x :=
    fun x => putUlongBE_low (low_setWidth _)
  have hinput := map_range_getD input 0
  rw [h] at hinput
  simp only [wordBytes, blockWords, hput, wordAt, putUlongBE_getUlongBE]
  exact hinput

theorem sm4OneRound_length {sk : List Word} {input : Str} : (sm4OneRound sk input).length = 16 :=
  rfl

theorem sm4OneRound_reverse {sk : List Word} (hsk : sk.length = 32) {input : Str}
    (h : input.length = 16) : sm4OneRound sk.reverse (sm4OneRound sk input) = input := by
  rw [sm4OneRound_eq (by simp [hsk]), sm4OneRound_eq hsk, blockWords_wordBytes]
  rw [halfRounds, rounds_reverse xor_cancel halfF_rev, rev_rev]
  exact wordBytes_blockWords h

theorem foldl_append_length {α β : Type} (g : List α → β → α) (l : List β) (k : List α) :
    (l.foldl (fun k i => k ++ [g k i]) k).length = k.length + l.length := by
  induction l generalizing k with
  | nil => rfl
  | cons i l ih =>
    rw [List.foldl_cons, ih]
    simp
    omega

theorem sm4Setkey_length (key : Str) : (sm4Setkey key).length = 32 := by
  rw [sm4Setkey, List.length_drop, foldl_append_length]
  rfl

/-- After `n` swaps the outer `n` keys on each side have changed places. -/
theorem swapKeys_foldl {sk : List Word} (h : sk.length = 32) {n : ℕ} (hn : n ≤ 16) :
    ((List.range n).foldl swapKeys sk).length = 32 ∧ ∀ i < 32,
      ((List.range n).foldl swapKeys sk).getD i 0 =
        if i < n ∨ 31 - n < i then sk.getD (31 - i) 0 else sk.getD i 0 := by
  induction n with
  | zero =>
    refine ⟨h, ?_⟩
    intro i hi
    have hnot : ¬ (i < 0 ∨ 31 - 0 < i) := by omega
    rw [if_neg hnot]
    rfl
  | succ n ih =>
    obtain ⟨hlen, hget⟩ := ih (by omega)
    rw [List.range_succ, List.foldl_append, List.foldl_cons, List.foldl_nil]
    have houter : ∀ i, i = n ∨ i = 31 - n →
        ((List.range n).foldl swapKeys sk).getD i 0 = sk.getD i 0 := by
      intro i hi
      rw [hget i (by omega), if_neg (by omega)]
    refine ⟨by simp [swapKeys, hlen], ?_⟩
    intro i hi
    rw [swapKeys, houter n (Or.inl rfl), houter (31 - n) (Or.inr rfl)]
    by_cases hout : i = 31 - n
    · subst hout
      rw [List.getD_eq_getElem _ _ (by simpa [hlen] using hi), List.getElem_set_self,
        if_pos (by omega)]
      congr 1
      omega
    by_cases hin : i = n
    · subst hin
      rw [List.getD_eq_getElem _ _ (by simp [hlen]; omega), List.getElem_set_ne (by omega),
        List.getElem_set_self, if_pos (by omega)]
    · rw [List.getD_eq_getElem _ _ (by simp [hlen]; omega), List.getElem_set_ne (by omega),
        List.getElem_set_ne (by omega), ← List.getD_eq_getElem _ 0, hget i hi]
      congr 1
      simp only [eq_iff_iff]
      omega

theorem swapKeys_reverse {sk : List Word} (h : sk.length = 32) {n : ℕ} (hn : n = 16) :
    (List.range n).foldl swapKeys sk = sk.reverse := by
  obtain ⟨hswap, hget⟩ := swapKeys_foldl h hn.le
  apply List.ext_getElem (by rw [hswap, List.length_reverse, h])
  intro i hi hi'
  have hlt : i < 32 := hswap ▸ hi
  have hkey := hget i hlt
  rw [if_pos (by omega)] at hkey
  rw [List.getElem_reverse, ← List.getD_eq_getElem _ 0, hkey, ← List.getD_eq_getElem _ 0]
  congr 1
  omega

theorem sm4SetkeyDec_eq (key : Str) : sm4SetkeyDec key = (sm4SetkeyEnc key).reverse :=
  swapKeys_reverse (sm4Setkey_length key) rfl

theorem sm4OneRound_dec_enc (key : Str) {input : Str} (h : input.length = 16) :
    sm4OneRound (sm4SetkeyDec key) (sm4OneRound (sm4SetkeyEnc key) input) = input := by
  rw [sm4SetkeyDec_eq]
  exact sm4OneRound_reverse (sm4Setkey_length key) h

-- the test vector of the standard: the key encrypts itself
example :
    let key : Str := [0x01, 0x23, 0x45, 0x67, 0x89, 0xab, 0xcd, 0xef,
      0xfe, 0xdc, 0xba, 0x98, 0x76, 0x54, 0x32, 0x10]
    sm4OneRound (sm4SetkeyEnc key) key = [0x68, 0x1e, 0xdf, 0x34, 0xd2, 0x06, 0x96, 0x5e,
      0x86, 0xb3, 0xe9, 0x4f, 0x53, 0x6e, 0x42, 0x46] := by
  decide +kernel

end Sm4
