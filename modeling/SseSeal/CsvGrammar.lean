import Mathlib.Data.List.Forall2
import SseSeal.CsvReader

/-! What the reader takes for a table. Every file is, but for its carriage returns, the text of
exactly one table of cell texts, and the reader finds it. -/
namespace CsvGrammar

open Bytes CsvReader

def Open (t : Str) : Prop := t.head? = some quote ∧ t.count quote % 2 = 1

instance instDecidableOpen (t : Str) : Decidable (Open t) :=
  inferInstanceAs (Decidable (_ ∧ _))

/-- A text that the reader takes as one cell: it is inside quotes at each separator. -/
def CellText (sep : UInt8) (t : Str) : Prop := ∀ u v, t = u ++ sep :: v → Open u

inductive LineOf (sep : UInt8) : List Str → Str → Prop
  | last {t : Str} (text : CellText sep t) : LineOf sep [t] t
  | cons {t line rest : Str} {ts : List Str} (split : line = t ++ sep :: rest)
      (text : CellText sep t) (closed : ¬ Open t) (tail : LineOf sep ts rest) :
      LineOf sep (t :: ts) line

def linesOf : Str → List Str
  | [] => []
  | c :: s =>
    if c = lineFeed then [] :: linesOf s
    else
      match linesOf s with
      | [] => [[c]]
      | l :: ls => (c :: l) :: ls

/-- What is left of a stream without the byte order mark and the carriage returns. -/
def content (stream : Str) : Str := (skipBom stream).filter (· ≠ carriageReturn)

def FileOf (sep : UInt8) (file : List (List Str)) (stream : Str) : Prop :=
  List.Forall₂ (LineOf sep) file (linesOf (content stream))

/-- A reader that ends a row at each line feed and keeps all rows. -/
structure Lined (p : SeparatorParams) (q : LineReaderParams) : Prop where
  separator_ne_quote : p.separator ≠ quote
  separator_ne_carriageReturn : p.separator ≠ carriageReturn
  separator_ne_lineFeed : p.separator ≠ lineFeed
  quotedLinebreaks : p.quotedLinebreaks = false
  skipEmptyLines : q.skipEmptyLines = false
  skipCommentLines : q.skipCommentLines = false

variable {p : SeparatorParams} {q : LineReaderParams} {sep c : UInt8} {t t' line rest rest' : Str}
  {ts ts' lines : List Str} {file file' : List (List Str)} {pre stream : Str} {s : Reader}
  {data : List (List Str)}

theorem not_open_nil : ¬ Open [] := by
  rintro ⟨h, _⟩
  cases h

theorem open_append_quote :
    Open (t ++ [quote]) ↔ if t = [] ∨ t.head? = some quote then ¬ Open t else Open t := by
  cases t with
  | nil => simp [Open]
  | cons a t =>
    by_cases ha : a = quote
    · simp only [Open, List.cons_append, List.head?_cons, ha, List.count_append, List.count_cons,
        List.count_nil]
      simp only [BEq.rfl, if_true, or_true, true_and]
      omega
    · simp [Open, ha]

theorem open_append (hc : c ≠ quote) : Open (t ++ [c]) ↔ Open t := by
  cases t with
  | nil => simp [Open, hc]
  | cons a t => simp [Open, List.count_cons, hc]

theorem cellText_nil : CellText sep [] := by
  intro u v h
  simp at h

theorem cellText_of_notMem (h : sep ∉ t) : CellText sep t := by
  rintro u v rfl
  exact absurd (by simp) h

theorem CellText.append (h : CellText sep t) (hc : c = sep → Open t) :
    CellText sep (t ++ [c]) := by
  intro u v heq
  rcases List.eq_nil_or_concat v with rfl | ⟨v', a, rfl⟩
  · obtain ⟨rfl, hlast⟩ := List.append_inj' heq rfl
    exact hc (List.singleton_inj.mp hlast)
  · have hsplit : t ++ [c] = (u ++ sep :: v') ++ [a] := by
      rw [heq]
      simp
    exact h u v' (List.append_inj_left' hsplit rfl)

/-- Two texts in front of a separator are the same unless one goes on behind the other. -/
theorem split_unique (ht : ∀ u, t' ≠ t ++ sep :: u) (ht' : ∀ u, t ≠ t' ++ sep :: u)
    (h : t ++ sep :: rest = t' ++ sep :: rest') : t = t' ∧ rest = rest' := by
  rcases List.append_eq_append_iff.mp h with ⟨u, rfl, hu⟩ | ⟨u, rfl, hu⟩
  · cases u with
    | nil => simpa using hu
    | cons a u =>
      obtain ⟨rfl, _⟩ := List.cons_eq_cons.mp hu
      exact absurd rfl (ht u)
  · cases u with
    | nil => simpa [eq_comm] using hu
    | cons a u =>
      obtain ⟨rfl, _⟩ := List.cons_eq_cons.mp hu
      exact absurd rfl (ht' u)

theorem first_cell (ht : CellText sep t) (hclosed : ¬ Open t) (ht' : CellText sep t')
    (hclosed' : ¬ Open t') (h : t ++ sep :: rest = t' ++ sep :: rest') : t = t' ∧ rest = rest' :=
  split_unique (fun u heq => hclosed (ht' t u heq)) (fun u heq => hclosed' (ht t' u heq)) h

theorem LineOf.unique (h : LineOf sep ts line) (h' : LineOf sep ts' line) : ts = ts' := by
  induction h generalizing ts' with
  | last text =>
    cases h' with
    | last => rfl
    | cons split _ closed _ => exact absurd (text _ _ split) closed
  | cons split text closed _ ih =>
    cases h' with
    | last text' => exact absurd (text' _ _ split) closed
    | cons split' text' closed' tail' =>
      obtain ⟨rfl, rfl⟩ := first_cell text closed text' closed' (split.symm.trans split')
      rw [ih tail']

theorem FileOf.unique (h : FileOf sep file stream) (h' : FileOf sep file' stream) :
    file = file' := by
  have hright : Relator.LeftUnique (LineOf sep) := fun _ _ _ h h' => h.unique h'
  exact hright.forall₂ h h'

theorem lineOf_texts (hts : ∀ t ∈ ts, CellText sep t ∧ ¬ Open t) (ht : CellText sep t) :
    LineOf sep (ts ++ [t]) (ts.flatMap (· ++ [sep]) ++ t) := by
  induction ts with
  | nil => exact .last ht
  | cons a ts ih =>
    obtain ⟨htext, hclosed⟩ := hts a List.mem_cons_self
    have htail := ih fun t ht => hts t (List.mem_cons_of_mem a ht)
    refine .cons ?_ htext hclosed htail
    simp

theorem linesOf_append (h : lineFeed ∉ line) (s : Str) :
    linesOf (line ++ lineFeed :: s) = line :: linesOf s := by
  induction line with
  | nil => simp [linesOf]
  | cons c line ih =>
    obtain ⟨hc, hline⟩ : c ≠ lineFeed ∧ lineFeed ∉ line := by
      simpa [eq_comm] using h
    rw [List.cons_append, linesOf, if_neg hc, ih hline]

theorem linesOf_line (h : lineFeed ∉ line) : linesOf line = if line = [] then [] else [line] := by
  induction line with
  | nil => rfl
  | cons c line ih =>
    obtain ⟨hc, hline⟩ : c ≠ lineFeed ∧ lineFeed ∉ line := by
      simpa [eq_comm] using h
    rw [linesOf, if_neg hc, ih hline]
    by_cases hnil : line = [] <;> simp [hnil]

theorem linesOf_lines (h : ∀ line ∈ lines, lineFeed ∉ line) (s : Str) :
    linesOf (lines.flatMap (· ++ [lineFeed]) ++ s) = lines ++ linesOf s := by
  induction lines with
  | nil => rfl
  | cons line lines ih =>
    have hlines := ih fun l hl => h l (List.mem_cons_of_mem line hl)
    have hline := linesOf_append (h line List.mem_cons_self)
      (lines.flatMap (· ++ [lineFeed]) ++ s)
    rw [List.flatMap_cons, List.append_assoc, List.append_assoc, List.singleton_append, hline,
      hlines]
    rfl

structure Read (p : SeparatorParams) (data : List (List Str)) (pre : Str) (s : Reader)
    (file : List (List Str)) (lines ts : List Str) : Prop where
  bytes : pre.filter (· ≠ carriageReturn) =
    lines.flatMap (· ++ [lineFeed]) ++ (ts.flatMap (· ++ [p.separator]) ++ s.cell)
  shown : List.Forall₂ (LineOf p.separator) file lines
  lines : ∀ line ∈ lines, lineFeed ∉ line
  line : lineFeed ∉ ts.flatMap (· ++ [p.separator]) ++ s.cell
  texts : ∀ t ∈ ts, CellText p.separator t ∧ ¬ Open t
  cell : CellText p.separator s.cell
  data : s.data = data ++ file.map (List.map (cellValue p))
  row : s.row = ts.map (cellValue p)
  quoted : s.quoted = decide (Open s.cell)
  cr : s.cr = pre.count carriageReturn
  lf : s.lf = pre.count lineFeed

theorem read_start : Read p data [] ⟨data, [], [], false, 0, 0⟩ [] [] [] where
  bytes := rfl
  shown := .nil
  lines := by simp
  line := by simp
  texts := by simp
  cell := cellText_nil
  data := (List.append_nil data).symm
  row := rfl
  quoted := (decide_eq_false not_open_nil).symm
  cr := rfl
  lf := rfl

theorem Read.append (h : Read p data pre s file lines ts) (hcr : c ≠ carriageReturn)
    (hlf : c ≠ lineFeed) (hsep : c = p.separator → Open s.cell) {quoted : Bool}
    (hquoted : quoted = decide (Open (s.cell ++ [c]))) :
    Read p data (pre ++ [c]) { s with cell := s.cell ++ [c], quoted := quoted } file lines ts where
  bytes := by
    rw [List.filter_append, h.bytes]
    simp [hcr]
  shown := h.shown
  lines := h.lines
  line := by
    have hline := h.line
    simp only [List.mem_append, List.mem_singleton, not_or] at hline ⊢
    exact ⟨hline.1, hline.2, hlf.symm⟩
  texts := h.texts
  cell := h.cell.append hsep
  data := h.data
  row := h.row
  quoted := hquoted
  cr := by
    rw [List.count_append, ← h.cr]
    simp [hcr]
  lf := by
    rw [List.count_append, ← h.lf]
    simp [hlf]

theorem Read.endCell (hp : Lined p q) (h : Read p data pre s file lines ts)
    (hclosed : ¬ Open s.cell) :
    Read p data (pre ++ [p.separator]) (s.endCell p) file lines (ts ++ [s.cell]) where
  bytes := by
    rw [List.filter_append, h.bytes]
    simp [Reader.endCell, hp.separator_ne_carriageReturn]
  shown := h.shown
  lines := h.lines
  line := by
    have hline := h.line
    simpa [Reader.endCell, hp.separator_ne_lineFeed.symm] using hline
  texts := by
    intro t ht
    rcases List.mem_append.mp ht with ht | ht
    · exact h.texts t ht
    · obtain rfl := List.mem_singleton.mp ht
      exact ⟨h.cell, hclosed⟩
  cell := cellText_nil
  data := h.data
  row := by simp [Reader.endCell, h.row]
  quoted := by
    have hquoted := h.quoted
    rw [decide_eq_false hclosed] at hquoted
    exact hquoted.trans (decide_eq_false not_open_nil).symm
  cr := by
    rw [List.count_append, ← show s.cr = _ from h.cr]
    simp [Reader.endCell, hp.separator_ne_carriageReturn]
  lf := by
    rw [List.count_append, ← show s.lf = _ from h.lf]
    simp [Reader.endCell, hp.separator_ne_lineFeed]

theorem Read.dropped (h : Read p data pre s file lines ts) :
    Read p data (pre ++ [carriageReturn]) { s with cr := s.cr + 1 } file lines ts where
  bytes := by
    rw [List.filter_append, h.bytes]
    simp
  shown := h.shown
  lines := h.lines
  line := h.line
  texts := h.texts
  cell := h.cell
  data := h.data
  row := h.row
  quoted := h.quoted
  cr := by
    rw [List.count_append, ← h.cr]
    simp
  lf := by
    rw [List.count_append, ← h.lf]
    simp [carriageReturn, lineFeed]

theorem Read.endLine (hp : Lined p q) (h : Read p data pre s file lines ts) :
    Read p data (pre ++ [lineFeed]) (({ s with lf := s.lf + 1 } : Reader).endLine p q)
      (file ++ [ts ++ [s.cell]]) (lines ++ [ts.flatMap (· ++ [p.separator]) ++ s.cell]) [] := by
  have heq : ({ s with lf := s.lf + 1 } : Reader).endLine p q =
      ⟨s.data ++ [s.row ++ [cellValue p s.cell]], [], [], false, s.cr, s.lf + 1⟩ := by
    simp [Reader.endLine, hp.skipEmptyLines, hp.skipCommentLines]
  rw [heq]
  constructor
  · rw [List.filter_append, h.bytes]
    simp [carriageReturn, lineFeed]
  · exact List.rel_append h.shown (.cons (lineOf_texts h.texts h.cell) .nil)
  · intro line hline
    rcases List.mem_append.mp hline with hline | hline
    · exact h.lines line hline
    · obtain rfl := List.mem_singleton.mp hline
      exact h.line
  · simp
  · simp
  · exact cellText_nil
  · simp [h.data, h.row]
  · rfl
  · exact (decide_eq_false not_open_nil).symm
  · rw [List.count_append, ← h.cr]
    simp [carriageReturn, lineFeed]
  · rw [List.count_append, ← h.lf]
    simp

theorem Read.step (hp : Lined p q) (h : Read p data pre s file lines ts) (c : UInt8) :
    ∃ file lines ts, Read p data (pre ++ [c]) (s.step p q c) file lines ts := by
  unfold Reader.step
  by_cases hquote : c = quote
  · subst hquote
    rw [if_pos rfl]
    refine ⟨file, lines, ts, h.append (by decide) (by decide) ?_ ?_⟩
    · intro hsep
      exact absurd hsep.symm hp.separator_ne_quote
    · rw [h.quoted]
      by_cases hfirst : s.cell = [] ∨ s.cell.head? = some quote <;>
        simp [open_append_quote, hfirst]
  rw [if_neg hquote]
  by_cases hsep : c = p.separator
  · subst hsep
    rw [if_pos rfl]
    by_cases hopen : Open s.cell
    · rw [h.quoted, decide_eq_true hopen, if_pos rfl]
      refine ⟨file, lines, ts, h.append hp.separator_ne_carriageReturn hp.separator_ne_lineFeed
        (fun _ => hopen) ?_⟩
      rw [h.quoted]
      exact decide_eq_decide.mpr (open_append hquote).symm
    · rw [h.quoted, decide_eq_false hopen, if_neg Bool.false_ne_true]
      exact ⟨file, lines, ts ++ [s.cell], h.endCell hp hopen⟩
  rw [if_neg hsep]
  by_cases hcr : c = carriageReturn
  · subst hcr
    rw [if_pos rfl, hp.quotedLinebreaks, if_neg (by simp)]
    exact ⟨file, lines, ts, h.dropped⟩
  rw [if_neg hcr]
  by_cases hlf : c = lineFeed
  · subst hlf
    rw [if_pos rfl, hp.quotedLinebreaks, if_neg (by simp)]
    exact ⟨_, _, _, h.endLine hp⟩
  rw [if_neg hlf]
  refine ⟨file, lines, ts, h.append hcr hlf (fun h => absurd h hsep) ?_⟩
  rw [h.quoted]
  exact decide_eq_decide.mpr (open_append hquote).symm

theorem read_run (hp : Lined p q) (data : List (List Str)) (pre : Str) :
    ∃ file lines ts,
      Read p data pre (Reader.run p q ⟨data, [], [], false, 0, 0⟩ pre) file lines ts := by
  induction pre using List.reverseRecOn with
  | nil => exact ⟨[], [], [], read_start⟩
  | append_singleton pre c ih =>
    obtain ⟨file, lines, ts, h⟩ := ih
    rw [Reader.run, List.foldl_append]
    exact h.step hp c

/-- Where the file is cut into blocks does not matter. -/
theorem readBlocks_eq (p : SeparatorParams) (q : LineReaderParams) (s : Reader) (stream : Str) :
    s.readBlocks p q stream = s.run p q stream := by
  fun_induction Reader.readBlocks p q s stream with
  | case1 s => rfl
  | case2 s stream hne ih =>
    rw [ih, Reader.run, Reader.run, Reader.run, ← List.foldl_append, List.take_append_drop]

theorem Read.fileOf (h : Read p data (skipBom stream) s file lines ts) :
    ∃ shown, FileOf p.separator shown stream ∧
      (s.lastLine p).data = data ++ shown.map (List.map (cellValue p)) ∧
      (s.lastLine p).cr = s.cr ∧ (s.lastLine p).lf = s.lf := by
  have hlines : linesOf (content stream) =
      lines ++ linesOf (ts.flatMap (· ++ [p.separator]) ++ s.cell) := by
    rw [content, h.bytes, linesOf_lines h.lines]
  rw [linesOf_line h.line] at hlines
  by_cases hnil : ts = [] ∧ s.cell = []
  · obtain ⟨rfl, hcell⟩ := hnil
    have hrow : s.row = [] := h.row
    refine ⟨file, ?_, ?_⟩
    · rw [FileOf, hlines, hcell]
      simpa using h.shown
    · rw [Reader.lastLine, if_pos ⟨hcell, hrow⟩]
      exact ⟨h.data, rfl, rfl⟩
  · have hne : ¬ (s.cell = [] ∧ s.row = []) := by
      rw [h.row, List.map_eq_nil_iff]
      tauto
    have hline : ts.flatMap (· ++ [p.separator]) ++ s.cell ≠ [] := by
      cases ts with
      | nil => simpa using hnil
      | cons t ts => simp
    refine ⟨file ++ [ts ++ [s.cell]], ?_, ?_⟩
    · rw [FileOf, hlines, if_neg hline]
      exact List.rel_append h.shown (.cons (lineOf_texts h.texts h.cell) .nil)
    · rw [Reader.lastLine, if_neg hne]
      refine ⟨?_, rfl, rfl⟩
      simp [h.data, h.row]

def shownDocument (d : CsvDocument) (file : List (List Str)) (stream : Str) : CsvDocument :=
  { d with
    separatorParams := { d.separatorParams with
      hasCR := decide ((skipBom stream).count lineFeed / 2 <
        (skipBom stream).count carriageReturn) }
    data := file.map (List.map (cellValue d.separatorParams)) }

theorem readCsv_file {d : CsvDocument} (hd : Lined d.separatorParams d.lineReaderParams)
    (stream : Str) : ∃ file, FileOf d.separatorParams.separator file stream ∧
      d.readCsv stream = shownDocument d file stream := by
  obtain ⟨file, lines, ts, h⟩ := read_run hd [] (skipBom stream)
  obtain ⟨shown, hshown, hdata, hcr, hlf⟩ := h.fileOf
  refine ⟨shown, hshown, ?_⟩
  rw [h.cr] at hcr
  rw [h.lf] at hlf
  simp only [CsvDocument.readCsv, CsvDocument.parseCsv, readBlocks_eq, shownDocument, hcr, hlf,
    hdata, List.nil_append]

/-- Each stream, up to its carriage returns and the byte order mark, is the text of exactly one
table of cell texts, however the file is cut into blocks, and that is the table that is read. -/
theorem readCsv_grammar {d : CsvDocument} (hd : Lined d.separatorParams d.lineReaderParams)
    (stream : Str) : ∃ file,
      (∀ other, FileOf d.separatorParams.separator other stream ↔ other = file) ∧
      d.readCsv stream = shownDocument d file stream := by
  obtain ⟨file, hfile, hread⟩ := readCsv_file hd stream
  refine ⟨file, ?_, hread⟩
  intro other
  constructor
  · intro hother
    exact hother.unique hfile
  · rintro rfl
    exact hfile

theorem linesOf_mem (h : line ∈ linesOf stream) : lineFeed ∉ line ∧ ∀ a ∈ line, a ∈ stream := by
  induction stream generalizing line with
  | nil => cases h
  | cons c s ih =>
    rw [linesOf] at h
    by_cases hc : c = lineFeed
    · rw [if_pos hc] at h
      rcases List.mem_cons.mp h with rfl | h
      · simp
      · exact ⟨(ih h).1, fun a ha => List.mem_cons_of_mem c ((ih h).2 a ha)⟩
    · rw [if_neg hc] at h
      cases hlines : linesOf s with
      | nil =>
        rw [hlines] at h
        obtain rfl := List.mem_singleton.mp h
        simpa [eq_comm] using hc
      | cons l ls =>
        rw [hlines] at h ih
        rcases List.mem_cons.mp h with rfl | h
        · obtain ⟨hnot, hmem⟩ := ih List.mem_cons_self
          simp only [List.mem_cons, not_or]
          exact ⟨⟨Ne.symm hc, hnot⟩, fun a ha => ha.imp_right (hmem a)⟩
        · obtain ⟨hnot, hmem⟩ := ih (List.mem_cons_of_mem l h)
          exact ⟨hnot, fun a ha => List.mem_cons_of_mem c (hmem a ha)⟩

theorem LineOf.ne_nil (h : LineOf sep ts line) : ts ≠ [] := by
  cases h <;> simp

theorem LineOf.mem (h : LineOf sep ts line) (ht : t ∈ ts) (hc : c ∈ t) : c ∈ line := by
  induction h with
  | last =>
    obtain rfl := List.mem_singleton.mp ht
    exact hc
  | cons split _ _ _ ih =>
    rw [split]
    rcases List.mem_cons.mp ht with rfl | ht
    · exact List.mem_append_left _ hc
    · exact List.mem_append_right _ (List.mem_cons_of_mem _ (ih ht))

theorem FileOf.wellFormed (h : FileOf sep file stream) (hts : ts ∈ file) :
    ts ≠ [] ∧ ∀ t ∈ ts, carriageReturn ∉ t ∧ lineFeed ∉ t := by
  obtain ⟨line, hline, hshown⟩ : ∃ line ∈ linesOf (content stream), LineOf sep ts line := by
    obtain ⟨i, hi, rfl⟩ := List.getElem_of_mem hts
    have hlen := h.length_eq
    exact ⟨_, List.getElem_mem (hlen ▸ hi), h.get hi (hlen ▸ hi)⟩
  obtain ⟨hlf, hmem⟩ := linesOf_mem hline
  refine ⟨hshown.ne_nil, ?_⟩
  intro t ht
  constructor
  · intro hcr
    have hcontent := hmem _ (hshown.mem ht hcr)
    simp [content] at hcontent
  · intro h
    exact hlf (hshown.mem ht h)

theorem lined_labelled :
    Lined CsvDocument.labelled.separatorParams CsvDocument.labelled.lineReaderParams where
  separator_ne_quote := by decide
  separator_ne_carriageReturn := by decide
  separator_ne_lineFeed := by decide
  quotedLinebreaks := rfl
  skipEmptyLines := rfl
  skipCommentLines := rfl

theorem readCsv_grammar_quoted : ∃ file,
    (∀ other, FileOf 44 other [97, 44, 98, 10, 120, 44, 34, 121, 44, 34, 10] ↔ other = file) ∧
    CsvDocument.labelled.readCsv [97, 44, 98, 10, 120, 44, 34, 121, 44, 34, 10] =
      shownDocument .labelled file [97, 44, 98, 10, 120, 44, 34, 121, 44, 34, 10] :=
  readCsv_grammar lined_labelled _

end CsvGrammar
