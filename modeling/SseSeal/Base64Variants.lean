import Mathlib.Data.List.GetD
import Mathlib.Data.List.InsertIdx
import SseSeal.Base64

/-! The variants of `base64_encode` and `base64_decode`: the alphabet for URLs, and line breaks. -/
namespace Base64Variants

open Bytes Base64

def base64CharsUrl : Str :=
  ofAscii "ABCDEFGHIJKLMNOPQRSTUVWXYZabcdefghijklmnopqrstuvwxyz0123456789-_"

def charOf (url : Bool) (i : ℕ) : UInt8 := (if url then base64CharsUrl else base64Chars).getD i 0

def trailingCharOf (url : Bool) : UInt8 := if url then 46 else 61

def base64EncodeWith (url : Bool) : Str → Str
  | [] => []
  | [b0] =>
    [charOf url ((b0.toNat &&& 0xfc) >>> 2), charOf url ((b0.toNat &&& 0x03) <<< 4),
      trailingCharOf url, trailingCharOf url]
  | [b0, b1] =>
    [charOf url ((b0.toNat &&& 0xfc) >>> 2),
      charOf url (((b0.toNat &&& 0x03) <<< 4) + ((b1.toNat &&& 0xf0) >>> 4)),
      charOf url ((b1.toNat &&& 0x0f) <<< 2), trailingCharOf url]
  | b0 :: b1 :: b2 :: rest =>
    charOf url ((b0.toNat &&& 0xfc) >>> 2) ::
      charOf url (((b0.toNat &&& 0x03) <<< 4) + ((b1.toNat &&& 0xf0) >>> 4)) ::
      charOf url (((b1.toNat &&& 0x0f) <<< 2) + ((b2.toNat &&& 0xc0) >>> 6)) ::
      charOf url (b2.toNat &&& 0x3f) :: base64EncodeWith url rest

def translated (url : Bool) (chr : UInt8) : UInt8 :=
  if url then if chr = 43 then 45 else if chr = 47 then 95 else if chr = 61 then 46 else chr
  else chr

theorem charOf_eq (url : Bool) (i : ℕ) : charOf url i = translated url (charAt i) := by
  by_cases hi : i < 64
  · have hsmall : ∀ i < 64, charOf url i = translated url (charAt i) := by
      cases url <;> decide +kernel
    exact hsmall i hi
  · have hlen : base64Chars.length ≤ i := Nat.le_of_not_lt hi
    have hlen' : base64CharsUrl.length ≤ i := Nat.le_of_not_lt hi
    rw [charAt, List.getD_eq_default _ _ hlen, charOf]
    cases url
    · exact List.getD_eq_default _ _ hlen
    · exact List.getD_eq_default _ _ hlen'

theorem trailingCharOf_eq (url : Bool) : trailingCharOf url = translated url trailingChar := by
  cases url <;> rfl

theorem base64EncodeWith_eq (url : Bool) (s : Str) :
    base64EncodeWith url s = (base64Encode s).map (translated url) := by
  induction s using base64Encode.induct with
  | case1 => rfl
  | case2 b0 => simp only [base64EncodeWith, base64Encode, List.map_cons, List.map_nil, charOf_eq,
      trailingCharOf_eq]
  | case3 b0 b1 => simp only [base64EncodeWith, base64Encode, List.map_cons, List.map_nil,
      charOf_eq, trailingCharOf_eq]
  | case4 b0 b1 b2 rest ih => simp only [base64EncodeWith, base64Encode, List.map_cons, charOf_eq,
      ih]

theorem translated_read (url : Bool) (chr : UInt8) :
    posOfChar (translated url chr) = posOfChar chr ∧
      isTrailing (translated url chr) = isTrailing chr := by
  cases url with
  | false => exact ⟨rfl, rfl⟩
  | true =>
    by_cases h43 : chr = 43
    · subst h43
      decide
    by_cases h47 : chr = 47
    · subst h47
      decide
    by_cases h61 : chr = 61
    · subst h61
      decide
    have hsame : translated true chr = chr := by
      rw [translated, if_pos rfl, if_neg h43, if_neg h47, if_neg h61]
    rw [hsame]
    exact ⟨rfl, rfl⟩

theorem decodeChunk_translated (url : Bool) (c0 c1 : UInt8) (more : Str) :
    decodeChunk (translated url c0) (translated url c1) (more.map (translated url)) =
      decodeChunk c0 c1 more := by
  have hread := translated_read url
  match more with
  | [] => simp only [decodeChunk, List.map_nil, (hread _).1]
  | [c2] => simp only [decodeChunk, List.map_cons, List.map_nil, (hread _).1, (hread _).2]
  | c2 :: c3 :: more => simp only [decodeChunk, List.map_cons, (hread _).1, (hread _).2]

theorem base64Decode_translated (url : Bool) (s : Str) :
    base64Decode (s.map (translated url)) = base64Decode s := by
  induction s using base64Decode.induct with
  | case1 => rfl
  | case2 => rfl
  | case3 c0 c1 => exact decodeChunk_translated url c0 c1 []
  | case4 c0 c1 c2 => exact decodeChunk_translated url c0 c1 [c2]
  | case5 c0 c1 c2 c3 rest ih =>
    have hchunk := decodeChunk_translated url c0 c1 [c2, c3]
    simp only [List.map_cons, List.map_nil] at hchunk
    simp only [List.map_cons, base64Decode, hchunk, ih]

theorem base64Encode_length (s : Str) : (base64Encode s).length % 4 = 0 := by
  induction s using base64Encode.induct with
  | case1 => rfl
  | case2 b0 => simp only [base64Encode, List.length_cons, List.length_nil]
  | case3 b0 b1 => simp only [base64Encode, List.length_cons, List.length_nil]
  | case4 b0 b1 b2 rest ih =>
    simp only [base64Encode, List.length_cons]
    omega

/-- A last chunk may go without its padding. -/
theorem base64Decode_padded {chr : UInt8} (hchr : isTrailing chr = true) {k : ℕ} (hk : k ≤ 2)
    (s : Str) (hlen : (s.length + k) % 4 = 0) :
    base64Decode (s ++ List.replicate k chr) = base64Decode s := by
  induction s using base64Decode.induct with
  | case1 =>
    obtain rfl : k = 0 := by
      simp only [List.length_nil] at hlen
      omega
    rfl
  | case2 c0 =>
    simp only [List.length_singleton] at hlen
    omega
  | case3 c0 c1 =>
    obtain rfl : k = 2 := by
      simp only [List.length_cons, List.length_nil] at hlen
      omega
    simp [base64Decode, decodeChunk, hchr, List.replicate]
  | case4 c0 c1 c2 =>
    obtain rfl : k = 1 := by
      simp only [List.length_cons, List.length_nil] at hlen
      omega
    simp [base64Decode, decodeChunk, hchr, List.replicate]
  | case5 c0 c1 c2 c3 rest ih =>
    simp only [List.length_cons] at hlen
    simp only [List.cons_append, base64Decode, ih (by omega)]

/-- `base64_decode`, which takes the line breaks out if it is told to. -/
def base64DecodeLines (s : Str) (removeLinebreaks : Bool) : Option Str :=
  if s = [] then some []
  else if removeLinebreaks then base64Decode (s.filter fun chr => chr ≠ 10)
  else base64Decode s

def linebreakLoop (distance : ℕ) (hd : 0 < distance) (str : Str) (pos : ℕ) : Str :=
  if pos < str.length then
    linebreakLoop distance hd (str.insertIdx pos 10) (pos + (distance + 1))
  else str
termination_by str.length - pos
decreasing_by
  rw [List.length_insertIdx]
  split <;> omega

def insertLinebreaks (str : Str) (distance : ℕ) (hd : 0 < distance) : Str :=
  if str = [] then [] else linebreakLoop distance hd str distance

def encodeWithLineBreaks (lineLength : ℕ) (hd : 0 < lineLength) (s : Str) : Str :=
  insertLinebreaks (base64EncodeWith false s) lineLength hd

def base64EncodePem : Str → Str := encodeWithLineBreaks 64 (by decide)

def base64EncodeMime : Str → Str := encodeWithLineBreaks 76 (by decide)

/-- Rows of the length of a line, but for the last one. -/
structure Rows (distance : ℕ) (text : Str) (rows : List Str) (last : Str) : Prop where
  flatten : rows.flatten ++ last = text
  row : ∀ row ∈ rows, row.length = distance
  last : last.length ≤ distance ∧ (text ≠ [] → last ≠ [])

theorem insertIdx_append (front tail : Str) (chr : UInt8) :
    (front ++ tail).insertIdx front.length chr = front ++ chr :: tail := by
  induction front with
  | nil => rfl
  | cons b front ih => exact congrArg (b :: ·) ih

theorem linebreakLoop_rows {distance : ℕ} (hd : 0 < distance) (done rest : Str) :
    ∃ rows last, linebreakLoop distance hd (done ++ rest) (done.length + distance) =
        done ++ rows.flatMap (· ++ [10]) ++ last ∧ Rows distance rest rows last := by
  induction hn : rest.length using Nat.strong_induction_on generalizing done rest with
  | _ n ih =>
  subst hn
  rw [linebreakLoop, List.length_append]
  by_cases hlt : distance < rest.length
  · have hsplit : done ++ rest = (done ++ rest.take distance) ++ rest.drop distance := by
      rw [List.append_assoc, List.take_append_drop]
    have htake : (rest.take distance).length = distance := List.length_take_of_le hlt.le
    have hpos : done.length + distance = (done ++ rest.take distance).length := by
      rw [List.length_append, htake]
    have hinsert : (done ++ rest).insertIdx (done.length + distance) 10 =
        (done ++ rest.take distance ++ [10]) ++ rest.drop distance := by
      rw [hpos, hsplit, insertIdx_append, List.append_assoc _ [10], List.singleton_append]
    have hnext : done.length + distance + (distance + 1) =
        (done ++ rest.take distance ++ [10]).length + distance := by
      rw [List.length_append, List.length_append, htake, List.length_singleton]
      omega
    have hdrop : (rest.drop distance).length < rest.length := by
      rw [List.length_drop]
      omega
    obtain ⟨rows, last, hloop, hrows⟩ := ih _ hdrop (done ++ rest.take distance ++ [10])
      (rest.drop distance) rfl
    rw [if_pos (by omega), hinsert, hnext, hloop]
    refine ⟨rest.take distance :: rows, last, ?_, ?_, ?_, ?_⟩
    · simp
    · rw [List.flatten_cons, List.append_assoc, hrows.flatten, List.take_append_drop]
    · intro row hrow
      rcases List.mem_cons.mp hrow with rfl | hrow
      · exact htake
      · exact hrows.row row hrow
    · refine ⟨hrows.last.1, fun _ => hrows.last.2 ?_⟩
      intro hnil
      rw [List.drop_eq_nil_iff] at hnil
      omega
  · rw [if_neg (by omega)]
    refine ⟨[], rest, ?_, ?_, nofun, Nat.le_of_not_lt hlt, id⟩
    · simp
    · rfl

theorem charOf_ne_newline (url : Bool) (i : ℕ) : charOf url i ≠ 10 := by
  rw [charOf_eq]
  by_cases hi : i < 64
  · have hsmall : ∀ i < 64, translated url (charAt i) ≠ 10 := by
      cases url <;> decide +kernel
    exact hsmall i hi
  · have hzero : charAt i = 0 := List.getD_eq_default _ _ (Nat.le_of_not_lt hi)
    rw [hzero]
    cases url <;> decide

theorem base64EncodeWith_no_newline (url : Bool) (s : Str) : 10 ∉ base64EncodeWith url s := by
  have hchar := fun i => (charOf_ne_newline url i).symm
  have htrailing : 10 ≠ trailingCharOf url := by cases url <;> decide
  induction s using base64EncodeWith.induct with
  | case1 => exact List.not_mem_nil
  | case2 b0 => simp [base64EncodeWith, hchar, htrailing]
  | case3 b0 b1 => simp [base64EncodeWith, hchar, htrailing]
  | case4 b0 b1 b2 rest ih => simp [base64EncodeWith, hchar, ih]

theorem base64DecodeLines_eq (text : Str) :
    base64DecodeLines text true = base64Decode (text.filter fun chr => chr ≠ 10) := by
  rw [base64DecodeLines]
  split
  · rename_i hnil
    rw [hnil]
    rfl
  · rfl

/-- An encoding in either alphabet is decoded, wherever it is broken into lines and with or
without its padding. -/
theorem encodings_decode {url : Bool} {s text : Str} {k : ℕ} (hk : k ≤ 2)
    (h : (text.filter fun chr => chr ≠ 10) ++ List.replicate k (trailingCharOf url) =
      base64EncodeWith url s) : base64DecodeLines text true = some s := by
  have hchr : isTrailing (trailingCharOf url) = true := by cases url <;> rfl
  have hlen : ((text.filter fun chr => chr ≠ 10).length + k) % 4 = 0 := by
    have hlength := congrArg List.length h
    rw [List.length_append, List.length_replicate, base64EncodeWith_eq, List.length_map]
      at hlength
    rw [hlength]
    exact base64Encode_length s
  calc base64DecodeLines text true
      = base64Decode (text.filter fun chr => chr ≠ 10) := base64DecodeLines_eq text
    _ = base64Decode (base64EncodeWith url s) := by rw [← base64Decode_padded hchr hk _ hlen, h]
    _ = base64Decode (base64Encode s) := by rw [base64EncodeWith_eq, base64Decode_translated]
    _ = some s := base64Decode_base64Encode s

theorem encodings_decode_sample : base64DecodeLines [45, 10, 119] true = some [251] := by
  have hencoding : (([45, 10, 119] : Str).filter fun chr => chr ≠ 10) ++
      List.replicate 2 (trailingCharOf true) = base64EncodeWith true [251] := by
    rw [base64EncodeWith]
    decide
  exact encodings_decode (by decide) hencoding

theorem filter_rows {rows : List Str} {last text : Str} (h : rows.flatten ++ last = text)
    (htext : 10 ∉ text) :
    (rows.flatMap (· ++ [10]) ++ last).filter (fun chr => chr ≠ 10) = text := by
  have hkeep : ∀ l : Str, 10 ∉ l → l.filter (fun chr => chr ≠ 10) = l := by
    intro l hl
    rw [List.filter_eq_self]
    intro chr hchr
    have hne : chr ≠ 10 := fun heq => hl (heq ▸ hchr)
    simpa using hne
  subst h
  induction rows with
  | nil => exact hkeep last htext
  | cons row rows ih =>
    rw [List.flatten_cons, List.append_assoc, List.mem_append, not_or] at htext
    simp only [List.flatMap_cons, List.flatten_cons, List.append_assoc, List.filter_append,
      hkeep row htext.1] at ih ⊢
    rw [ih htext.2]
    rfl

theorem encodeWithLineBreaks_rows {lineLength : ℕ} (hd : 0 < lineLength) (s : Str) :
    ∃ rows last, encodeWithLineBreaks lineLength hd s = rows.flatMap (· ++ [10]) ++ last ∧
      Rows lineLength (base64EncodeWith false s) rows last := by
  rw [encodeWithLineBreaks, insertLinebreaks]
  by_cases hnil : base64EncodeWith false s = []
  · rw [if_pos hnil, hnil]
    exact ⟨[], [], rfl, rfl, nofun, Nat.zero_le _, id⟩
  · rw [if_neg hnil]
    have hloop := linebreakLoop_rows hd [] (base64EncodeWith false s)
    simp only [List.nil_append, List.length_nil, Nat.zero_add] at hloop
    exact hloop

/-- The encodings for PEM and for MIME consist of rows of 64 and of 76 characters, with a last row
that is not longer, and empty for the empty string only. The decoder takes the line breaks out
again. -/
theorem line_breaks_decode (s : Str) :
    (∃ rows last, base64EncodePem s = rows.flatMap (· ++ [10]) ++ last ∧
        Rows 64 (base64EncodeWith false s) rows last) ∧
      (∃ rows last, base64EncodeMime s = rows.flatMap (· ++ [10]) ++ last ∧
        Rows 76 (base64EncodeWith false s) rows last) ∧
      base64DecodeLines (base64EncodePem s) true = some s ∧
      base64DecodeLines (base64EncodeMime s) true = some s := by
  have hdecode : ∀ (lineLength : ℕ) (text : Str) (rows : List Str) (last : Str),
      text = rows.flatMap (· ++ [10]) ++ last →
      Rows lineLength (base64EncodeWith false s) rows last →
      base64DecodeLines text true = some s := by
    intro lineLength text rows last htext hrows
    rw [base64DecodeLines_eq, htext,
      filter_rows hrows.flatten (base64EncodeWith_no_newline false s), base64EncodeWith_eq,
      base64Decode_translated, base64Decode_base64Encode]
  obtain ⟨rows, last, hpem, hrows⟩ := encodeWithLineBreaks_rows (by decide : 0 < 64) s
  obtain ⟨rows', last', hmime, hrows'⟩ := encodeWithLineBreaks_rows (by decide : 0 < 76) s
  exact ⟨⟨rows, last, hpem, hrows⟩, ⟨rows', last', hmime, hrows'⟩,
    hdecode 64 _ rows last hpem hrows, hdecode 76 _ rows' last' hmime hrows'⟩

end Base64Variants
