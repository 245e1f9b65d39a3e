import SseSeal.Sm4
import Mathlib.Data.Vector.Basic

/-! SM4 as it is defined, on words of 32 bits with rotations of 32 bits, and that the code on
words of 64 bits computes it. -/
namespace Sm4Standard

open Bytes Feistel Sm4

def join (b0 b1 b2 b3 : UInt8) : Half := b0.toBitVec ++ b1.toBitVec ++ b2.toBitVec ++ b3.toBitVec

def byteAt (w : Half) (n : ℕ) : UInt8 := ⟨w.extractLsb' n 8⟩

def words (v : Vector UInt8 16) : Words Half :=
  (join v[0] v[1] v[2] v[3], join v[4] v[5] v[6] v[7], join v[8] v[9] v[10] v[11],
    join v[12] v[13] v[14] v[15])

def bytesOf (w : Half) : Str := [byteAt w 24, byteAt w 16, byteAt w 8, byteAt w 0]

def tau (w : Half) : Half :=
  join (sm4Sbox (byteAt w 24)) (sm4Sbox (byteAt w 16)) (sm4Sbox (byteAt w 8)) (sm4Sbox (byteAt w 0))

def linear (b : Half) : Half :=
  b ^^^ b.rotateLeft 2 ^^^ b.rotateLeft 10 ^^^ b.rotateLeft 18 ^^^ b.rotateLeft 24

def keyLinear (b : Half) : Half := b ^^^ b.rotateLeft 13 ^^^ b.rotateLeft 23

def systemParameters : Words Half := (0xa3b1bac6, 0x56aa3350, 0x677d9197, 0xb27022dc)

/-- The bytes of a fixed parameter are the multiples of seven. -/
def fixedParameter (i : ℕ) : Half :=
  join (.ofNat (4 * i * 7)) (.ofNat ((4 * i + 1) * 7)) (.ofNat ((4 * i + 2) * 7))
    (.ofNat ((4 * i + 3) * 7))

def cipherRounds (keys : List Half) (s : Words Half) : Words Half :=
  rounds (fun a b => a ^^^ b) (fun a b c k => linear (tau (a ^^^ b ^^^ c ^^^ k))) keys s

def keyRounds (parameters : List Half) (s : Words Half) : Words Half :=
  rounds (fun a b => a ^^^ b) (fun a b c k => keyLinear (tau (a ^^^ b ^^^ c ^^^ k))) parameters s

def keyWords (key : Vector UInt8 16) : Words Half :=
  let mk := words key
  (mk.1 ^^^ systemParameters.1, mk.2.1 ^^^ systemParameters.2.1,
    mk.2.2.1 ^^^ systemParameters.2.2.1, mk.2.2.2 ^^^ systemParameters.2.2.2)

def roundKey (key : Vector UInt8 16) (i : ℕ) : Half :=
  (keyRounds ((List.range (i + 1)).map fixedParameter) (keyWords key)).2.2.2

def encrypt (key block : Vector UInt8 16) : Str :=
  let x := rev (cipherRounds ((List.range 32).map (roundKey key)) (words block))
  bytesOf x.1 ++ bytesOf x.2.1 ++ bytesOf x.2.2.1 ++ bytesOf x.2.2.2

theorem getUlongBE_eq (b0 b1 b2 b3 : UInt8) :
    getUlongBE b0 b1 b2 b3 = (join b0 b1 b2 b3).setWidth 64 := by
  ext i hi
  simp [getUlongBE, join]
  grind

theorem and_mask (w : Half) : w.setWidth 64 &&& (0xFFFFFFFF : Word) = w.setWidth 64 := by
  apply BitVec.eq_of_toNat_eq
  have hlt := w.isLt
  have hmod := Nat.and_two_pow_sub_one_eq_mod w.toNat 32
  rw [BitVec.toNat_and, BitVec.toNat_setWidth, Nat.mod_eq_of_lt (by omega)]
  rw [Nat.mod_eq_of_lt hlt] at hmod
  exact hmod

theorem low_rotl (w : Half) {n : ℕ} (hn : n < 32) :
    low (rotl (w.setWidth 64) n) = w.rotateLeft n := by
  rw [rotl, shl, and_mask]
  ext i hi
  simp [low, BitVec.getElem_rotateLeft, Nat.mod_eq_of_lt hn]
  grind

theorem byteAt_low (x : Word) {n : ℕ} (hn : n ≤ 24) :
    (⟨(x >>> n).setWidth 8⟩ : UInt8) = byteAt (low x) n := by
  rw [byteAt]
  congr 1
  ext i hi
  simp [low]
  omega

theorem substituted_eq (x : Word) : substituted x = (tau (low x)).setWidth 64 := by
  have hlast : (⟨x.setWidth 8⟩ : UInt8) = byteAt (low x) 0 := by
    simpa using byteAt_low x (Nat.zero_le 24)
  rw [substituted, byteAt_low x (by decide), byteAt_low x (by decide), byteAt_low x (by decide),
    hlast, getUlongBE_eq, tau]

theorem low_sm4Lt (x : Word) : low (sm4Lt x) = linear (tau (low x)) := by
  simp only [sm4Lt, substituted_eq, low_xor, low_setWidth, linear]
  rw [low_rotl _ (by decide), low_rotl _ (by decide),
    low_rotl _ (by decide), low_rotl _ (by decide)]

theorem low_sm4CalciRK (x : Word) : low (sm4CalciRK x) = keyLinear (tau (low x)) := by
  simp only [sm4CalciRK, substituted_eq, low_xor, low_setWidth, keyLinear]
  rw [low_rotl _ (by decide), low_rotl _ (by decide)]

theorem halfRounds_eq (sk : List Word) (s : Words Half) :
    halfRounds sk s = cipherRounds (sk.map low) s := by
  have hf : ∀ a b c rk, halfF a b c rk = linear (tau (a ^^^ b ^^^ c ^^^ low rk)) := by
    intro a b c rk
    rw [halfF, low_sm4Lt, low_xor, low_setWidth]
  induction sk generalizing s with
  | nil => rfl
  | cons rk sk ih =>
    have hround : round (fun a b => a ^^^ b) halfF s rk =
        round (fun a b => a ^^^ b) (fun a b c k => linear (tau (a ^^^ b ^^^ c ^^^ k))) s
          (low rk) := by
      rw [Feistel.round, Feistel.round, hf]
    calc halfRounds (rk :: sk) s
        = halfRounds sk (round (fun a b => a ^^^ b) halfF s rk) := rfl
      _ = cipherRounds (sk.map low) (round (fun a b => a ^^^ b) halfF s rk) := ih _
      _ = cipherRounds ((rk :: sk).map low) s := by
          rw [hround]
          rfl

def keyStep (k : List Word) (i : ℕ) : List Word :=
  k ++ [k.getD i 0 ^^^
    sm4CalciRK (k.getD (i + 1) 0 ^^^ k.getD (i + 2) 0 ^^^ k.getD (i + 3) 0 ^^^ CK.getD i 0)]

theorem keyRounds_concat (n : ℕ) (s : Words Half) :
    keyRounds ((List.range (n + 1)).map fixedParameter) s =
      round (fun a b => a ^^^ b) (fun a b c k => keyLinear (tau (a ^^^ b ^^^ c ^^^ k)))
        (keyRounds ((List.range n).map fixedParameter) s) (fixedParameter n) := by
  rw [List.range_succ, List.map_append]
  simp [keyRounds, rounds]

theorem low_CK : ∀ i < 32, low (CK.getD i 0) = fixedParameter i := by decide +kernel

theorem keyStep_foldl (a b c d : Word) {n : ℕ} (hn : n ≤ 32) :
    ∃ pre a' b' c' d', (List.range n).foldl keyStep [a, b, c, d] = pre ++ [a', b', c', d'] ∧
      pre.length = n ∧
      (low a', low b', low c', low d') =
        keyRounds ((List.range n).map fixedParameter) (low a, low b, low c, low d) ∧
      ((pre ++ [a', b', c', d']).drop 4).map low = (List.range n).map fun i =>
        (keyRounds ((List.range (i + 1)).map fixedParameter)
          (low a, low b, low c, low d)).2.2.2 := by
  induction n with
  | zero => exact ⟨[], a, b, c, d, rfl, rfl, rfl, rfl⟩
  | succ n ih =>
    obtain ⟨pre, a', b', c', d', hbuf, hlen, hlow, hkeys⟩ := ih (by omega)
    have hnew : low (a' ^^^ sm4CalciRK (b' ^^^ c' ^^^ d' ^^^ CK.getD n 0)) =
        (keyRounds ((List.range (n + 1)).map fixedParameter)
          (low a, low b, low c, low d)).2.2.2 := by
      rw [keyRounds_concat, ← hlow, low_xor, low_sm4CalciRK, low_xor, low_xor, low_xor,
        low_CK n (by omega), Feistel.round]
    refine ⟨pre ++ [a'], b', c', d', a' ^^^ sm4CalciRK (b' ^^^ c' ^^^ d' ^^^ CK.getD n 0),
      ?_, by simp [hlen], ?_, ?_⟩
    · rw [List.range_succ, List.foldl_append, hbuf]
      simp [keyStep, ← hlen]
    · rw [hnew, keyRounds_concat, ← hlow, Feistel.round]
    · have hsplit : pre ++ [a'] ++
          [b', c', d', a' ^^^ sm4CalciRK (b' ^^^ c' ^^^ d' ^^^ CK.getD n 0)] =
          pre ++ [a', b', c', d'] ++ [a' ^^^ sm4CalciRK (b' ^^^ c' ^^^ d' ^^^ CK.getD n 0)] := by
        simp
      rw [hsplit, List.drop_append_of_le_length (by simp), List.map_append, hkeys, List.range_succ,
        List.map_append, List.map_singleton, List.map_singleton, hnew]

theorem getD_toList (v : Vector UInt8 16) {i : ℕ} (hi : i < 16) : v.toList.getD i 0 = v[i] := by
  rw [List.getD_eq_getElem _ _ (by simpa using hi), Vector.getElem_toList]

theorem low_wordAt (v : Vector UInt8 16) {i : ℕ} (hi : i + 3 < 16) :
    low (wordAt v.toList i) = join v[i] v[i + 1] v[i + 2] v[i + 3] := by
  rw [wordAt, getD_toList v (by omega), getD_toList v (by omega), getD_toList v (by omega),
    getD_toList v hi, getUlongBE_eq, low_setWidth]

theorem blockWords_eq (v : Vector UInt8 16) : blockWords v.toList = words v := by
  rw [blockWords, low_wordAt v (by decide), low_wordAt v (by decide), low_wordAt v (by decide),
    low_wordAt v (by decide), words]

/-- The round keys of the code are those of the cipher, up to bits that no use of them reads. -/
theorem low_sm4Setkey (key : Vector UInt8 16) :
    (sm4Setkey key.toList).map low = (List.range 32).map (roundKey key) := by
  have hcode : sm4Setkey key.toList = ((List.range 32).foldl keyStep
      [wordAt key.toList 0 ^^^ FK.getD 0 0, wordAt key.toList 4 ^^^ FK.getD 1 0,
        wordAt key.toList 8 ^^^ FK.getD 2 0, wordAt key.toList 12 ^^^ FK.getD 3 0]).drop 4 := rfl
  obtain ⟨pre, a, b, c, d, hbuf, _, _, hkeys⟩ := keyStep_foldl
    (wordAt key.toList 0 ^^^ FK.getD 0 0) (wordAt key.toList 4 ^^^ FK.getD 1 0)
    (wordAt key.toList 8 ^^^ FK.getD 2 0) (wordAt key.toList 12 ^^^ FK.getD 3 0) (n := 32) le_rfl
  have hstart : (low (wordAt key.toList 0 ^^^ FK.getD 0 0),
      low (wordAt key.toList 4 ^^^ FK.getD 1 0),
      low (wordAt key.toList 8 ^^^ FK.getD 2 0), low (wordAt key.toList 12 ^^^ FK.getD 3 0)) =
        keyWords key := by
    rw [keyWords, ← blockWords_eq, blockWords, low_xor, low_xor, low_xor, low_xor]
    rfl
  rw [hcode, hbuf, hkeys, hstart]
  rfl

theorem putUlongBE_eq (w : Half) : putUlongBE (w.setWidth 64) = bytesOf w := by
  have hlast : (⟨(w.setWidth 64 : Word).setWidth 8⟩ : UInt8) = byteAt w 0 := by
    have h := byteAt_low (w.setWidth 64) (Nat.zero_le 24)
    rw [low_setWidth] at h
    simpa using h
  rw [putUlongBE, byteAt_low _ (by decide), byteAt_low _ (by decide), byteAt_low _ (by decide),
    hlast, low_setWidth, bytesOf]

/-- The code on words of 64 bits computes the cipher on words of 32 bits. -/
theorem sm4OneRound_standard (key block : Vector UInt8 16) :
    sm4OneRound (sm4SetkeyEnc key.toList) block.toList = encrypt key block := by
  rw [sm4SetkeyEnc, sm4OneRound_eq (sm4Setkey_length _), halfRounds_eq, low_sm4Setkey,
    blockWords_eq, Sm4.wordBytes, putUlongBE_eq, putUlongBE_eq, putUlongBE_eq, putUlongBE_eq,
    encrypt]

end Sm4Standard
