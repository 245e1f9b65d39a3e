import SseSeal.ComputedLog
import SseSeal.Objects
import SseSeal.SortedMap
import Mathlib.Algebra.Order.BigOperators.Group.List
import Mathlib.Algebra.Order.Ring.Nat

/-! `adj_padding`: every keyword is padded to the next power of `x`, and the memory is then
padded to `x` times its size. Both loops run up to and including their bound. -/
namespace Padding

open Bytes ComputedLog Objects SortedMap

abbrev Memory := List (Str × Document)

/-- The values `randombytes_uniform` and `randombytes_buf_deterministic` return. -/
structure Entropy where
  uniform : ℕ → ℕ
  uniformUsed : ℕ
  words : ℕ → ℕ
  wordsUsed : ℕ

/-- `randombytes_uniform`: a value below the bound, or 0 if there is none. -/
def Entropy.randombytesUniform (e : Entropy) (upperBound : ℕ) : ℕ × Entropy :=
  (if upperBound < 2 then 0 else e.uniform e.uniformUsed % upperBound,
    { e with uniformUsed := e.uniformUsed + 1 })

def alphanum : Str :=
  ofAscii "0123456789ABCDEFGHIJKLMNOPQRSTUVWXYZabcdefghijklmnopqrstuvwxyz"

def Entropy.randomString (e : Entropy) (len : ℕ) : Str × Entropy :=
  ((List.range len).map fun i => alphanum.getD (e.words (e.wordsUsed + i) % alphanum.length) 0,
    { e with wordsUsed := e.wordsUsed + len })

def Entropy.randomStringKeyed (e : Entropy) (len : ℕ) (_secretKey : Str) : Str × Entropy :=
  e.randomString len

structure Padded where
  memory : Memory
  entropy : Entropy

def dummyDocument (memorySize : ℕ) (keywords : List Str) (e : Entropy) : Document × Entropy :=
  let (value, e) := e.randombytesUniform ((2 ^ 64 + 0xfffffff0 - memorySize) % 2 ^ 32)
  (.ofTokens ((value + memorySize) % 2 ^ 32) keywords, e)

/-- The number of iterations of `for (unsigned int i = low; i <= high; i++)`. The loop does
not end if no `unsigned int` is above `high`. -/
def iterations (low high : ℕ) : Option ℕ :=
  if 2 ^ 32 - 1 ≤ high then none else some (high + 1 - low)

def pushDummy (keyword : Str) (s : Padded) : Padded :=
  let (dummy, e) := dummyDocument s.memory.length [ofAscii "ok", ofAscii "but"] s.entropy
  ⟨s.memory ++ [(keyword, dummy)], e⟩

/-- The power of `x` a keyword with this count is padded to. -/
def paddedSize (log : CeilLog) (x count : ℕ) : ℕ := x ^ log.value x count

def padKeyword (log : CeilLog) (x : ℕ) (s : Padded) (entry : Str × ℕ) : Option Padded :=
  (iterations entry.2 (paddedSize log x entry.2)).map fun n => (pushDummy entry.1)^[n] s

def pushFiller (secretKey : Str) (s : Padded × Dict Str ℕ) : Padded × Dict Str ℕ :=
  let (first, e) := s.1.entropy.randomString 16
  let (second, e) := e.randomString 16
  let (third, e) := e.randomString 16
  let (dummy, e) := dummyDocument s.1.memory.length [first, second, third] e
  let (keyword, e) := e.randomStringKeyed 16 secretKey
  (⟨s.1.memory ++ [(keyword, dummy)], e⟩, s.2.alter keyword fun v => v.getD 0 + 1)

/-- `adj_padding`, with the counts recorded for the keywords. -/
def adjPadding (log : CeilLog) (x : ℕ) (secretKey : Str) (memory : Memory) (count : Dict Str ℕ)
    (e : Entropy) : Option (Padded × Dict Str ℕ) := do
  let s ← count.entries.foldlM (padKeyword log x) ⟨memory, e⟩
  let n ← iterations (s.memory.length % 2 ^ 32) (x * s.memory.length)
  return (pushFiller secretKey)^[n] (s, count.mapValues (paddedSize log x))

/-- The counts `adj_data_in` takes of the keywords. -/
def countTable (memory : Memory) : Dict Str ℕ := tally (memory.map Prod.fst)

variable {log : CeilLog} {x : ℕ} {secretKey : Str} {e : Entropy} {s t : Padded}

@[simp] theorem pushDummy_memory_length (keyword : Str) (s : Padded) :
    (pushDummy keyword s).memory.length = s.memory.length + 1 := by
  simp [pushDummy]

@[simp] theorem pushFiller_memory_length (s : Padded × Dict Str ℕ) :
    (pushFiller secretKey s).1.memory.length = s.1.memory.length + 1 := by
  simp [pushFiller]

theorem pushDummy_iterate_length (keyword : Str) (n : ℕ) (s : Padded) :
    ((pushDummy keyword)^[n] s).memory.length = s.memory.length + n := by
  induction n generalizing s with
  | zero => rfl
  | succ n ih =>
    rw [Function.iterate_succ_apply, ih, pushDummy_memory_length]
    omega

theorem pushFiller_iterate_length (n : ℕ) (s : Padded × Dict Str ℕ) :
    ((pushFiller secretKey)^[n] s).1.memory.length = s.1.memory.length + n := by
  induction n generalizing s with
  | zero => rfl
  | succ n ih =>
    rw [Function.iterate_succ_apply, ih, pushFiller_memory_length]
    omega

theorem iterations_eq_some {low high n : ℕ} (h : iterations low high = some n) :
    high < 2 ^ 32 - 1 ∧ n = high + 1 - low := by
  rw [iterations] at h
  split at h
  · cases h
  · cases h
    exact ⟨by omega, rfl⟩

theorem le_paddedSize (log : CeilLog) (hx : 1 < x) (c : ℕ) : c ≤ paddedSize log x c :=
  log.le_pow hx c

theorem padKeyword_length (hx : 1 < x) {entry : Str × ℕ} (h : padKeyword log x s entry = some t) :
    t.memory.length + entry.2 = s.memory.length + (paddedSize log x entry.2 + 1) := by
  obtain ⟨n, hn, rfl⟩ := Option.map_eq_some_iff.mp h
  obtain ⟨_, rfl⟩ := iterations_eq_some hn
  have hle := le_paddedSize log hx entry.2
  rw [pushDummy_iterate_length]
  omega

theorem padKeywords_length (hx : 1 < x) {entries : List (Str × ℕ)}
    (h : entries.foldlM (padKeyword log x) s = some t) :
    t.memory.length + (entries.map Prod.snd).sum =
      s.memory.length + (entries.map fun entry => paddedSize log x entry.2 + 1).sum := by
  induction entries generalizing s with
  | nil =>
    cases h
    rfl
  | cons entry entries ih =>
    rw [List.foldlM_cons] at h
    obtain ⟨u, hu, h⟩ := Option.bind_eq_some_iff.mp h
    have hstep := padKeyword_length hx hu
    have hrest := ih h
    simp only [List.map_cons, List.sum_cons]
    omega

/-- The size of the memory after the first loop. -/
def keywordSizes (log : CeilLog) (x : ℕ) (memory : Memory) : ℕ :=
  ((countTable memory).entries.map fun entry => paddedSize log x entry.2 + 1).sum

theorem countTable_sum (memory : Memory) :
    ((countTable memory).entries.map Prod.snd).sum = memory.length := by
  rw [countTable, tally_sum, List.length_map]

theorem length_le_keywordSizes (log : CeilLog) (hx : 1 < x) (memory : Memory) :
    memory.length ≤ keywordSizes log x memory := by
  rw [← countTable_sum, keywordSizes]
  apply List.sum_le_sum
  intro entry _
  exact (le_paddedSize log hx entry.2).trans (Nat.le_succ _)

/-- The padded memory has one entry more than `x` times its size after the first loop. -/
theorem adjPadding_length (hx : 1 < x) {memory : Memory} {r : Padded × Dict Str ℕ}
    (h : adjPadding log x secretKey memory (countTable memory) e = some r) :
    r.1.memory.length = x * keywordSizes log x memory + 1 := by
  obtain ⟨s, hs, h⟩ := Option.bind_eq_some_iff.mp h
  obtain ⟨n, hn, h⟩ := Option.bind_eq_some_iff.mp h
  cases h
  have hsize : s.memory.length = keywordSizes log x memory := by
    have hlen := padKeywords_length hx hs
    rw [countTable_sum] at hlen
    rw [keywordSizes]
    simp only at hlen
    omega
  obtain ⟨hfits, rfl⟩ := iterations_eq_some hn
  have hle : s.memory.length ≤ x * s.memory.length := Nat.le_mul_of_pos_left _ (by omega)
  rw [pushFiller_iterate_length, Nat.mod_eq_of_lt (by omega), ← hsize]
  simp only
  omega

/-- The padded size is never `x` times the number of pairs, and it is the same for two inputs
if and only if their keywords pad to the same total. -/
theorem adjPadding_size (log : CeilLog) (hx : 2 ≤ x) (secretKey : Str) (memory : Memory)
    (e : Entropy) :
    (¬ ∃ r, adjPadding log x secretKey memory (countTable memory) e = some r ∧
      r.1.memory.length = x * memory.length) ∧
    ∀ memory' e' r r', adjPadding log x secretKey memory (countTable memory) e = some r →
      adjPadding log x secretKey memory' (countTable memory') e' = some r' →
      (r.1.memory.length = r'.1.memory.length ↔
        keywordSizes log x memory = keywordSizes log x memory') := by
  constructor
  · rintro ⟨r, h, hr⟩
    have hle := Nat.mul_le_mul_left x (length_le_keywordSizes log hx memory)
    have hlen := adjPadding_length hx h
    omega
  · intro memory' e' r r' h h'
    rw [adjPadding_length hx h, adjPadding_length hx h']
    constructor
    · intro heq
      exact Nat.eq_of_mul_eq_mul_left (by omega) (Nat.succ.inj heq)
    · intro heq
      rw [heq]

theorem adjPadding_size_one_pair :
    ¬ ∃ r, adjPadding .ideal 2 [] [([97], ⟨0, []⟩)] (countTable [([97], ⟨0, []⟩)])
      ⟨fun _ => 0, 0, fun _ => 0, 0⟩ = some r ∧ r.1.memory.length = 2 * 1 :=
  (adjPadding_size .ideal (by decide) [] [([97], ⟨0, []⟩)] ⟨fun _ => 0, 0, fun _ => 0, 0⟩).1

theorem two_pairs_padded_differently :
    ∃ r r', adjPadding .ideal 2 [] [([97], ⟨0, []⟩), ([98], ⟨1, []⟩)]
        (countTable [([97], ⟨0, []⟩), ([98], ⟨1, []⟩)]) ⟨fun _ => 0, 0, fun _ => 0, 0⟩ = some r ∧
      adjPadding .ideal 2 [] [([97], ⟨0, []⟩), ([97], ⟨1, []⟩)]
        (countTable [([97], ⟨0, []⟩), ([97], ⟨1, []⟩)]) ⟨fun _ => 0, 0, fun _ => 0, 0⟩ = some r' ∧
      r.1.memory.length = 9 ∧ r'.1.memory.length = 7 :=
  ⟨_, _, rfl, rfl, by decide +kernel, by decide +kernel⟩

end Padding
