import SseSeal.CsvGrammar

/-! Saving a document and loading it again. The writer puts a cell in quotes for a separator or
a space only, so a cell that begins with a quote may come back as another one. -/
namespace CsvRoundTrip

open Bytes CsvReader CsvGrammar

/-- The parameters of a reader that takes cells as they are, up to their quotes. -/
structure Plain (d : CsvDocument) : Prop where
  lined : Lined d.separatorParams d.lineReaderParams
  trim : d.separatorParams.trim = false
  autoQuote : d.separatorParams.autoQuote = true
  ascii : d.separatorParams.separator < 128

def NeedsQuotes (d : CsvDocument) (c : Str) : Prop := d.separatorParams.separator ∈ c ∨ space ∈ c

def LooksQuoted (c : Str) : Prop :=
  2 ≤ c.length ∧ c.head? = some quote ∧ c.getLast? = some quote

structure RowSurvives (d : CsvDocument) (row : List Str) : Prop where
  ne_nil : row ≠ []
  breaks : ∀ c ∈ row, carriageReturn ∉ c ∧ lineFeed ∉ c
  cells : ∀ c ∈ row, NeedsQuotes d c ∨ ¬ LooksQuoted c
  closed : ∀ c ∈ row.dropLast, NeedsQuotes d c ∨ ¬ Open c

instance instDecidableNeedsQuotes (d : CsvDocument) (c : Str) : Decidable (NeedsQuotes d c) :=
  inferInstanceAs (Decidable (_ ∨ _))

instance instDecidableLooksQuoted (c : Str) : Decidable (LooksQuoted c) :=
  inferInstanceAs (Decidable (_ ∧ _ ∧ _))

def NoBreaks (d : CsvDocument) : Prop :=
  ∀ row ∈ d.data, ∀ c ∈ row, carriageReturn ∉ c ∧ lineFeed ∉ c

structure Survives (d : CsvDocument) : Prop where
  rows : ∀ row ∈ d.data, RowSurvives d row
  first : ∀ c ∈ (d.data.headD []).head?, NeedsQuotes d c ∨ ¬ bomU8 <+: c
  hasCR : d.data = [] → d.separatorParams.hasCR = false

variable {d : CsvDocument} {a : UInt8} {c s t line rest : Str} {ts row : List Str}
  {file : List (List Str)} {stream : Str}

theorem replaceString_filter (s : Str) :
    (replaceString [quote, quote] [quote] s).filter (· ≠ quote) = s.filter (· ≠ quote) := by
  fun_induction replaceString [quote, quote] [quote] s with
  | case1 => rfl
  | case2 c s hmatch ih =>
    obtain ⟨rest, hrest⟩ := List.isPrefixOf_iff_prefix.mp hmatch.1
    rw [← hrest] at ih ⊢
    simpa using ih
  | case3 c s _ ih => rw [List.filter_cons, List.filter_cons, ih]

theorem replaceString_sublist (s : Str) :
    (replaceString [quote, quote] [quote] s).Sublist s := by
  fun_induction replaceString [quote, quote] [quote] s with
  | case1 => exact List.Sublist.refl []
  | case2 c s hmatch ih =>
    obtain ⟨rest, hrest⟩ := List.isPrefixOf_iff_prefix.mp hmatch.1
    rw [← hrest] at ih ⊢
    exact List.Sublist.cons _ (ih.cons_cons quote)
  | case3 c s _ ih => exact ih.cons_cons c

theorem escape_cons (c : UInt8) (s : Str) : replaceString [quote] [quote, quote] (c :: s) =
    (if c = quote then [quote, quote] else [c]) ++ replaceString [quote] [quote, quote] s := by
  rw [replaceString]
  by_cases hc : c = quote
  · simp [hc]
  · have hne : quote ≠ c := Ne.symm hc
    simp [hc, hne]

theorem escape_append (s t : Str) : replaceString [quote] [quote, quote] (s ++ t) =
    replaceString [quote] [quote, quote] s ++ replaceString [quote] [quote, quote] t := by
  induction s with
  | nil => simp [replaceString]
  | cons c s ih => rw [List.cons_append, escape_cons, escape_cons, ih, List.append_assoc]

theorem unescape_escape (s : Str) :
    replaceString [quote, quote] [quote] (replaceString [quote] [quote, quote] s) = s := by
  induction s with
  | nil => simp [replaceString]
  | cons c s ih =>
    rw [escape_cons]
    by_cases hc : c = quote
    · rw [if_pos hc, List.cons_append, List.cons_append, replaceString, hc]
      simpa using ih
    · have hne : quote ≠ c := Ne.symm hc
      rw [if_neg hc, List.singleton_append, replaceString]
      simpa [hne] using ih

theorem escape_open {sep : UInt8} (hsep : sep ≠ quote) (s : Str) :
    CellText sep (quote :: replaceString [quote] [quote, quote] s) ∧
      Open (quote :: replaceString [quote] [quote, quote] s) := by
  induction s using List.reverseRecOn with
  | nil =>
    rw [replaceString]
    refine ⟨CellText.append cellText_nil fun h => absurd h.symm hsep, ?_⟩
    decide
  | append_singleton s c ih =>
    obtain ⟨htext, hopen⟩ := ih
    have hnil : replaceString [quote] [quote, quote] [] = [] := by rw [replaceString]
    rw [escape_append, escape_cons, hnil, List.append_nil]
    by_cases hc : c = quote
    · have htwo : quote :: (replaceString [quote] [quote, quote] s ++ [quote, quote]) =
          (quote :: replaceString [quote] [quote, quote] s ++ [quote]) ++ [quote] := by simp
      rw [if_pos hc, htwo]
      have hnext := htext.append (c := quote) fun h => absurd h.symm hsep
      refine ⟨hnext.append fun h => absurd h.symm hsep, ?_⟩
      rw [open_append_quote, if_pos (by simp), open_append_quote, if_pos (by simp), not_not]
      exact hopen
    · rw [if_neg hc]
      exact ⟨htext.append fun _ => hopen, (open_append (t := quote :: _) hc).mpr hopen⟩

theorem looksQuoted_shorter (h : LooksQuoted t) :
    (replaceString [quote, quote] [quote] ((t.drop 1).take (t.length - 2))).length < t.length := by
  have hle := (replaceString_sublist ((t.drop 1).take (t.length - 2))).length_le
  have hlong := h.1
  rw [List.length_take] at hle
  omega

theorem looksQuoted_split (h : LooksQuoted t) :
    t = quote :: (t.drop 1).take (t.length - 2) ++ [quote] := by
  obtain ⟨hlong, hhead, hlast⟩ := h
  cases t with
  | nil => cases hhead
  | cons a t =>
    obtain rfl : a = quote := by simpa using hhead
    rcases List.eq_nil_or_concat t with rfl | ⟨mid, b, rfl⟩
    · simp at hlong
    · rw [List.concat_eq_append, ← List.cons_append, List.getLast?_concat] at hlast
      obtain rfl := Option.some.inj hlast
      simp

theorem filter_lineEnd : d.lineEnd.filter (· ≠ carriageReturn) = [lineFeed] := by
  unfold CsvDocument.lineEnd
  cases d.separatorParams.hasCR <;> rfl

theorem lineEnd_eq : ∃ a rest, d.lineEnd = a :: rest ∧ a < 128 := by
  unfold CsvDocument.lineEnd
  cases d.separatorParams.hasCR with
  | false => exact ⟨lineFeed, [], rfl, by decide⟩
  | true => exact ⟨carriageReturn, [lineFeed], rfl, by decide⟩

theorem notMem_bomU8 (ha : a < 128) : a ∉ bomU8 := by
  simp only [bomU8, List.mem_cons, List.not_mem_nil, or_false]
  rintro (rfl | rfl | rfl) <;> exact absurd ha (by decide)

theorem prefix_append_cons {l w : Str} (ha : a ∉ l) : l <+: w ++ a :: rest ↔ l <+: w := by
  induction l generalizing w with
  | nil => simp
  | cons x l ih =>
    obtain ⟨hx, hl⟩ : a ≠ x ∧ a ∉ l := by simpa using ha
    cases w with
    | nil => simp [List.cons_prefix_cons, Ne.symm hx]
    | cons y w => rw [List.cons_append, List.cons_prefix_cons, List.cons_prefix_cons, ih hl]

theorem takeWhile_line {sep : UInt8} (hsep : sep ∉ t)
    (h : line = t ∨ ∃ rest, line = t ++ sep :: rest) : line.takeWhile (· ≠ sep) = t := by
  have hall : ∀ a ∈ t, decide (a ≠ sep) = true := by
    intro a ha
    simpa using ne_of_mem_of_not_mem ha hsep
  rcases h with rfl | ⟨rest, rfl⟩
  · exact List.takeWhile_eq_self_iff.mpr hall
  · rw [List.takeWhile_append_of_pos hall, List.takeWhile_cons]
    simp

section Plain

variable (hd : Plain d)
include hd

theorem cellValue_eq (t : Str) : cellValue d.separatorParams t = if LooksQuoted t then
    replaceString [quote, quote] [quote] ((t.drop 1).take (t.length - 2)) else t := by
  simp [cellValue, CsvReader.trim, hd.trim, unquote, hd.autoQuote, LooksQuoted]

theorem cellValue_eq_self : cellValue d.separatorParams t = t ↔ ¬ LooksQuoted t := by
  rw [cellValue_eq hd]
  by_cases h : LooksQuoted t
  · rw [if_pos h]
    refine ⟨fun heq => ?_, fun hnot => absurd h hnot⟩
    have hlt := looksQuoted_shorter h
    rw [heq] at hlt
    exact absurd hlt (lt_irrefl _)
  · rw [if_neg h]
    exact ⟨fun _ => h, fun _ => rfl⟩

theorem cellValue_length_le (t : Str) : (cellValue d.separatorParams t).length ≤ t.length := by
  rw [cellValue_eq hd]
  by_cases h : LooksQuoted t
  · rw [if_pos h]
    exact (looksQuoted_shorter h).le
  · rw [if_neg h]

theorem mem_cellValue (ha : a ≠ quote) : a ∈ cellValue d.separatorParams t ↔ a ∈ t := by
  have hfilter : (cellValue d.separatorParams t).filter (· ≠ quote) = t.filter (· ≠ quote) := by
    rw [cellValue_eq hd]
    by_cases h : LooksQuoted t
    · rw [if_pos h, replaceString_filter]
      conv_rhs => rw [looksQuoted_split h]
      simp
    · rw [if_neg h]
  have hmem : a ∈ (cellValue d.separatorParams t).filter (· ≠ quote) ↔
      a ∈ t.filter (· ≠ quote) := by rw [hfilter]
  simpa [ha] using hmem

theorem writeCell_eq (c : Str) : d.writeCell c = if NeedsQuotes d c then
    quote :: replaceString [quote] [quote, quote] c ++ [quote] else c := by
  rw [CsvDocument.writeCell]
  by_cases h : NeedsQuotes d c
  · rw [if_pos h, if_pos ⟨hd.autoQuote, h⟩]
    rfl
  · rw [if_neg h, if_neg fun hquotes => h hquotes.2]

theorem cellText_writeCell (c : Str) : CellText d.separatorParams.separator (d.writeCell c) := by
  have hsep := hd.lined.separator_ne_quote
  rw [writeCell_eq hd]
  by_cases h : NeedsQuotes d c
  · rw [if_pos h]
    exact (escape_open hsep c).1.append fun hq => absurd hq.symm hsep
  · rw [if_neg h]
    exact cellText_of_notMem fun hmem => h (.inl hmem)

theorem open_writeCell : Open (d.writeCell c) ↔ ¬ NeedsQuotes d c ∧ Open c := by
  rw [writeCell_eq hd]
  by_cases h : NeedsQuotes d c
  · have hopen := (escape_open hd.lined.separator_ne_quote c).2
    rw [if_pos h, open_append_quote, if_pos (by simp)]
    tauto
  · rw [if_neg h]
    tauto

theorem cellValue_writeCell :
    cellValue d.separatorParams (d.writeCell c) = c ↔ NeedsQuotes d c ∨ ¬ LooksQuoted c := by
  rw [writeCell_eq hd]
  by_cases h : NeedsQuotes d c
  · have hlooks : LooksQuoted (quote :: replaceString [quote] [quote, quote] c ++ [quote]) := by
      refine ⟨by simp, rfl, ?_⟩
      rw [List.getLast?_append]
      rfl
    rw [if_pos h, cellValue_eq hd, if_pos hlooks]
    simp [unescape_escape, h]
  · rw [if_neg h, cellValue_eq_self hd]
    tauto

theorem lineOf_writeRow (hne : row ≠ [])
    (hclosed : ∀ c ∈ row.dropLast, NeedsQuotes d c ∨ ¬ Open c) :
    LineOf d.separatorParams.separator (row.map d.writeCell) (d.writeRow row) := by
  induction row with
  | nil => exact absurd rfl hne
  | cons c row ih =>
    cases row with
    | nil => exact .last (cellText_writeCell hd c)
    | cons b row =>
      rw [List.dropLast_cons_cons] at hclosed
      refine .cons rfl (cellText_writeCell hd c) ?_ (ih (by simp) ?_)
      · rw [open_writeCell hd]
        have hc := hclosed c List.mem_cons_self
        tauto
      · intro c' hc'
        exact hclosed c' (List.mem_cons_of_mem c hc')

theorem writeCell_of_split (htext : CellText d.separatorParams.separator t) (hclosed : ¬ Open t)
    (h : d.writeCell (cellValue d.separatorParams t) ++ d.separatorParams.separator :: line =
      t ++ d.separatorParams.separator :: rest) :
    d.writeCell (cellValue d.separatorParams t) = t ∧ line = rest := by
  by_cases hquotes : NeedsQuotes d (cellValue d.separatorParams t)
  · refine first_cell (cellText_writeCell hd _) ?_ htext hclosed h
    rw [open_writeCell hd]
    tauto
  · -- neither the cell nor its text has a separator
    have hnot : d.separatorParams.separator ∉ cellValue d.separatorParams t :=
      fun hmem => hquotes (Or.inl hmem)
    have hnot' := hnot
    rw [mem_cellValue hd hd.lined.separator_ne_quote] at hnot'
    rw [writeCell_eq hd, if_neg hquotes] at h ⊢
    refine split_unique ?_ ?_ h
    · intro u heq
      exact hnot' (heq ▸ by simp)
    · intro u heq
      exact hnot (heq ▸ by simp)

/-- If the cells come back, then each one is in quotes or cannot be taken for another. -/
theorem cells_survive (h : LineOf d.separatorParams.separator ts (d.writeRow row))
    (hts : ts.map (cellValue d.separatorParams) = row) :
    (∀ c ∈ row, NeedsQuotes d c ∨ ¬ LooksQuoted c) ∧
      ∀ c ∈ row.dropLast, NeedsQuotes d c ∨ ¬ Open c := by
  induction row generalizing ts with
  | nil => simp
  | cons c row ih =>
    obtain ⟨t, ts, rfl, rfl, hrow⟩ := List.map_eq_cons_iff.mp hts
    cases row with
    | nil =>
      obtain rfl := List.map_eq_nil_iff.mp hrow
      generalize hline : d.writeRow [cellValue d.separatorParams t] = line at h
      cases h with
      | last =>
        have hcell : d.writeCell (cellValue d.separatorParams t) = t := hline
        refine ⟨?_, by simp⟩
        intro c hc
        obtain rfl := List.mem_singleton.mp hc
        rw [← cellValue_writeCell hd, hcell]
      | cons _ _ _ tail => cases tail
    | cons b row =>
      generalize hline : d.writeRow (cellValue d.separatorParams t :: b :: row) = line at h
      cases h with
      | last => cases hrow
      | cons split text closed tail =>
        obtain ⟨hcell, rfl⟩ := writeCell_of_split hd text closed (hline.trans split)
        obtain ⟨hcells, hlast⟩ := ih tail hrow
        rw [List.dropLast_cons_cons]
        constructor
        · intro c hc
          rcases List.mem_cons.mp hc with rfl | hc
          · rw [← cellValue_writeCell hd, hcell]
          · exact hcells c hc
        · intro c hc
          rcases List.mem_cons.mp hc with rfl | hc
          · have hopen := (open_writeCell hd (c := cellValue d.separatorParams t)).not
            rw [hcell] at hopen
            tauto
          · exact hlast c hc

theorem mem_writeCell (ha : a ≠ quote) : a ∈ d.writeCell c ↔ a ∈ c := by
  rw [writeCell_eq hd]
  by_cases h : NeedsQuotes d c
  · have hfilter := replaceString_filter (replaceString [quote] [quote, quote] c)
    rw [unescape_escape] at hfilter
    have hmem : a ∈ c.filter (· ≠ quote) ↔
        a ∈ (replaceString [quote] [quote, quote] c).filter (· ≠ quote) := by rw [hfilter]
    simpa [h, ha] using hmem.symm
  · rw [if_neg h]

theorem mem_writeRow (ha : a ≠ quote) (hsep : a ≠ d.separatorParams.separator)
    (h : ∀ c ∈ row, a ∉ c) : a ∉ d.writeRow row := by
  induction row with
  | nil => simp [CsvDocument.writeRow]
  | cons c row ih =>
    have hc := h c List.mem_cons_self
    rw [← mem_writeCell hd ha] at hc
    cases row with
    | nil => exact hc
    | cons b row =>
      have hrow := ih fun c' hc' => h c' (List.mem_cons_of_mem c hc')
      rw [CsvDocument.writeRow, List.mem_append, List.mem_cons]
      tauto
      simp

theorem writeRow_noBreaks (h : NoBreaks d) (hrow : row ∈ d.data) :
    carriageReturn ∉ d.writeRow row ∧ lineFeed ∉ d.writeRow row :=
  ⟨mem_writeRow hd (by decide) hd.lined.separator_ne_carriageReturn.symm
    fun c hc => (h row hrow c hc).1,
  mem_writeRow hd (by decide) hd.lined.separator_ne_lineFeed.symm
    fun c hc => (h row hrow c hc).2⟩

theorem linesOf_writeCsv (h : NoBreaks d) :
    linesOf (d.writeCsv.filter (· ≠ carriageReturn)) = d.data.map d.writeRow := by
  have hfilter : d.writeCsv.filter (· ≠ carriageReturn) =
      (d.data.map d.writeRow).flatMap (· ++ [lineFeed]) ++ [] := by
    rw [CsvDocument.writeCsv, List.filter_flatMap, List.flatMap_map, List.append_nil]
    refine List.flatMap_congr fun row hrow => ?_
    have hnot := (writeRow_noBreaks hd h hrow).1
    rw [List.filter_append, filter_lineEnd, List.filter_eq_self.mpr]
    intro a ha
    simpa using ne_of_mem_of_not_mem ha hnot
  rw [hfilter, linesOf_lines, linesOf, List.append_nil]
  intro line hline
  obtain ⟨row, hrow, rfl⟩ := List.mem_map.mp hline
  exact (writeRow_noBreaks hd h hrow).2

theorem count_writeCsv (h : NoBreaks d) : d.writeCsv.count lineFeed = d.data.length ∧
    d.writeCsv.count carriageReturn = if d.separatorParams.hasCR then d.data.length else 0 := by
  have hcounts : ∀ row ∈ d.data, (d.writeRow row ++ d.lineEnd).count lineFeed = 1 ∧
      (d.writeRow row ++ d.lineEnd).count carriageReturn =
        if d.separatorParams.hasCR then 1 else 0 := by
    intro row hrow
    obtain ⟨hcr, hlf⟩ := writeRow_noBreaks hd h hrow
    rw [List.count_append, List.count_append, List.count_eq_zero.mpr hcr,
      List.count_eq_zero.mpr hlf, CsvDocument.lineEnd]
    cases d.separatorParams.hasCR <;> exact ⟨rfl, rfl⟩
  rw [CsvDocument.writeCsv]
  generalize d.data = rows at hcounts
  induction rows with
  | nil => simp
  | cons row rows ih =>
    obtain ⟨hlf, hcr⟩ := hcounts row List.mem_cons_self
    obtain ⟨hlf', hcr'⟩ := ih fun row' hrow' => hcounts row' (List.mem_cons_of_mem row hrow')
    simp only [List.flatMap_cons]
    generalize d.writeRow row ++ d.lineEnd = text at hlf hcr ⊢
    rw [List.count_append, List.count_append, hlf, hcr, hlf', hcr', List.length_cons]
    cases d.separatorParams.hasCR with
    | false => exact ⟨Nat.add_comm 1 _, rfl⟩
    | true => exact ⟨Nat.add_comm 1 _, Nat.add_comm 1 _⟩

/-- Behind the first cell there is a byte that the byte order mark does not have. -/
theorem writeCsv_first {cells : List Str} {rows : List (List Str)}
    (hdata : d.data = (c :: cells) :: rows) :
    ∃ a rest, d.writeCsv = d.writeCell c ++ a :: rest ∧ a < 128 := by
  obtain ⟨a, after, hend, ha⟩ := lineEnd_eq (d := d)
  rw [CsvDocument.writeCsv, hdata, List.flatMap_cons, hend]
  generalize rows.flatMap (fun row => d.writeRow row ++ a :: after) = tail
  cases cells with
  | nil => exact ⟨a, after ++ tail, by simp [CsvDocument.writeRow], ha⟩
  | cons b cells =>
    exact ⟨d.separatorParams.separator, d.writeRow (b :: cells) ++ a :: after ++ tail,
      by simp [CsvDocument.writeRow], hd.ascii⟩

theorem bom_writeCsv (hne : ∀ row ∈ d.data, row ≠ []) :
    bomU8 <+: d.writeCsv ↔ ∃ c cells rows, d.data = (c :: cells) :: rows ∧
      ¬ NeedsQuotes d c ∧ bomU8 <+: c := by
  have hcell : ∀ c cells rows, d.data = (c :: cells) :: rows →
      (bomU8 <+: d.writeCsv ↔ ¬ NeedsQuotes d c ∧ bomU8 <+: c) := by
    intro c cells rows hdata
    obtain ⟨a, rest, hstream, ha⟩ := writeCsv_first hd hdata
    rw [hstream, prefix_append_cons (notMem_bomU8 ha), writeCell_eq hd]
    by_cases hquotes : NeedsQuotes d c
    · simp [hquotes, bomU8, quote]
    · simp [hquotes]
  constructor
  · intro h
    cases hdata : d.data with
    | nil =>
      rw [CsvDocument.writeCsv, hdata] at h
      cases List.prefix_nil.mp h
    | cons row rows =>
      cases row with
      | nil => exact absurd rfl (hne [] (by simp [hdata]))
      | cons c cells => exact ⟨c, cells, rows, rfl, (hcell c cells rows hdata).mp h⟩
  · rintro ⟨c, cells, rows, hdata, h⟩
    exact (hcell c cells rows hdata).mpr h

theorem survives_read (h : Survives d) : d.readCsv d.writeCsv = d := by
  have hbreaks : NoBreaks d := fun row hrow => (h.rows row hrow).breaks
  have hbom : ¬ bomU8 <+: d.writeCsv := by
    rw [bom_writeCsv hd fun row hrow => (h.rows row hrow).ne_nil]
    rintro ⟨c, cells, rows, hdata, hquotes, hpre⟩
    have hfirst := h.first c (by simp [hdata])
    tauto
  have hskip : skipBom d.writeCsv = d.writeCsv := by
    rw [skipBom, if_neg (by rwa [List.isPrefixOf_iff_prefix])]
  obtain ⟨file, hfile, hread⟩ := readCsv_file hd.lined d.writeCsv
  have hshown : FileOf d.separatorParams.separator (d.data.map (List.map d.writeCell))
      d.writeCsv := by
    rw [FileOf, content, hskip, linesOf_writeCsv hd hbreaks, List.forall₂_map_left_iff,
      List.forall₂_map_right_iff, List.forall₂_same]
    intro row hrow
    exact lineOf_writeRow hd (h.rows row hrow).ne_nil (h.rows row hrow).closed
  obtain rfl := hfile.unique hshown
  rw [hread, shownDocument, hskip]
  obtain ⟨hlf, hcr⟩ := count_writeCsv hd hbreaks
  have hdata : (d.data.map (List.map d.writeCell)).map
      (List.map (cellValue d.separatorParams)) = d.data := by
    rw [List.map_map]
    refine (List.map_congr_left fun row hrow => ?_).trans (List.map_id d.data)
    rw [Function.comp_apply, List.map_map]
    refine (List.map_congr_left fun c hc => ?_).trans (List.map_id row)
    exact (cellValue_writeCell hd).mpr ((h.rows row hrow).cells c hc)
  have hhasCR : decide (d.writeCsv.count lineFeed / 2 < d.writeCsv.count carriageReturn) =
      d.separatorParams.hasCR := by
    rw [hlf, hcr]
    have hempty : d.data.length = 0 → d.separatorParams.hasCR = false :=
      fun hlen => h.hasCR (List.length_eq_zero_iff.mp hlen)
    cases hhas : d.separatorParams.hasCR with
    | false => simp
    | true =>
      have hpos : d.data.length ≠ 0 := fun hlen => by simp [hempty hlen] at hhas
      simp only [if_true, decide_eq_true_eq]
      omega
  rw [hdata, hhasCR]

theorem bom_lost {cells : List Str} {rows : List (List Str)} (hbreaks : NoBreaks d)
    (hdata : d.data = (c :: cells) :: rows) (hquotes : ¬ NeedsQuotes d c) (hc : bomU8 <+: c)
    (hfile : FileOf d.separatorParams.separator file d.writeCsv) :
    file.map (List.map (cellValue d.separatorParams)) ≠ d.data := by
  intro hread
  obtain ⟨x, rfl⟩ := hc
  have hcell : d.writeCell (bomU8 ++ x) = bomU8 ++ x := by
    rw [writeCell_eq hd, if_neg hquotes]
  obtain ⟨y, hrow, hy⟩ : ∃ y, d.writeRow ((bomU8 ++ x) :: cells) = bomU8 ++ y ∧
      (y = x ∨ ∃ rest, y = x ++ d.separatorParams.separator :: rest) := by
    cases cells with
    | nil => exact ⟨x, hcell, .inl rfl⟩
    | cons b cells =>
      refine ⟨x ++ d.separatorParams.separator :: d.writeRow (b :: cells), ?_, .inr ⟨_, rfl⟩⟩
      rw [CsvDocument.writeRow, hcell, List.append_assoc]
      simp
  have hmem : (bomU8 ++ x) :: cells ∈ d.data := by simp [hdata]
  obtain ⟨hcr, hlf⟩ := writeRow_noBreaks hd hbreaks hmem
  rw [hrow, List.mem_append, not_or] at hcr hlf
  have hstream : d.writeCsv = bomU8 ++ (y ++ d.lineEnd ++
      rows.flatMap fun row => d.writeRow row ++ d.lineEnd) := by
    rw [CsvDocument.writeCsv, hdata, List.flatMap_cons, hrow]
    simp
  have hlines : ∃ lines, linesOf (content d.writeCsv) = y :: lines := by
    have hskip : skipBom d.writeCsv = y ++ d.lineEnd ++
        rows.flatMap fun row => d.writeRow row ++ d.lineEnd := by
      have hmark : bomU8.isPrefixOf d.writeCsv := by
        rw [hstream, List.isPrefixOf_iff_prefix]
        exact List.prefix_append _ _
      rw [skipBom, if_pos hmark, hstream]
      rfl
    have hy : y.filter (· ≠ carriageReturn) = y := by
      rw [List.filter_eq_self]
      intro a ha
      simpa using ne_of_mem_of_not_mem ha hcr.2
    rw [content, hskip, List.filter_append, List.filter_append, hy, filter_lineEnd,
      List.append_assoc, List.singleton_append, linesOf_append hlf.2]
    exact ⟨_, rfl⟩
  obtain ⟨lines, hlines⟩ := hlines
  rw [FileOf, hlines] at hfile
  rw [hdata] at hread
  obtain ⟨ts, file, rfl, hts, hrest⟩ := List.map_eq_cons_iff.mp hread
  obtain ⟨t, ts, rfl, hvalue, hcells⟩ := List.map_eq_cons_iff.mp hts
  have hline : LineOf d.separatorParams.separator (t :: ts) y := by
    cases hfile with
    | cons hline _ => exact hline
  have hsep : d.separatorParams.separator ∉ bomU8 ++ x := fun hmem => hquotes (.inl hmem)
  have ht : d.separatorParams.separator ∉ t := by
    rwa [← hvalue, mem_cellValue hd hd.lined.separator_ne_quote] at hsep
  have hx : t = x := by
    rw [← takeWhile_line (fun hmem => hsep (List.mem_append_right _ hmem)) hy]
    symm
    refine takeWhile_line ht ?_
    cases hline with
    | last => exact .inl rfl
    | cons split => exact .inr ⟨_, split⟩
  -- the value is no longer than the text
  have hle := cellValue_length_le hd t
  rw [hvalue, hx, List.length_append, bomU8, List.length_cons] at hle
  omega

theorem read_survives (h : d.readCsv d.writeCsv = d) : Survives d := by
  obtain ⟨file, hfile, hread⟩ := readCsv_file hd.lined d.writeCsv
  rw [h] at hread
  have hdata : d.data = file.map (List.map (cellValue d.separatorParams)) :=
    congrArg CsvDocument.data hread
  have hwell : ∀ row ∈ d.data, row ≠ [] ∧ ∀ c ∈ row, carriageReturn ∉ c ∧ lineFeed ∉ c := by
    intro row hrow
    rw [hdata] at hrow
    obtain ⟨ts, hts, rfl⟩ := List.mem_map.mp hrow
    obtain ⟨hne, hbreaks⟩ := hfile.wellFormed hts
    refine ⟨by simpa using hne, ?_⟩
    intro c hc
    obtain ⟨t, ht, rfl⟩ := List.mem_map.mp hc
    rw [mem_cellValue hd (by decide), mem_cellValue hd (by decide)]
    exact hbreaks t ht
  have hbreaks : NoBreaks d := fun row hrow => (hwell row hrow).2
  have hbom : ¬ bomU8 <+: d.writeCsv := by
    rw [bom_writeCsv hd fun row hrow => (hwell row hrow).1]
    rintro ⟨c, cells, rows, hrows, hquotes, hc⟩
    exact bom_lost hd hbreaks hrows hquotes hc hfile hdata.symm
  have hskip : skipBom d.writeCsv = d.writeCsv := by
    rw [skipBom, if_neg (by rwa [List.isPrefixOf_iff_prefix])]
  rw [FileOf, content, hskip, linesOf_writeCsv hd hbreaks, hdata, List.map_map,
    List.forall₂_map_right_iff, List.forall₂_same] at hfile
  refine ⟨?_, ?_, ?_⟩
  · intro row hrow
    obtain ⟨hne, hnot⟩ := hwell row hrow
    rw [hdata] at hrow
    obtain ⟨ts, hts, rfl⟩ := List.mem_map.mp hrow
    obtain ⟨hcells, hclosed⟩ := cells_survive hd (hfile ts hts) rfl
    exact ⟨hne, hnot, hcells, hclosed⟩
  · intro c hc
    by_contra hnot
    rw [not_or, not_not] at hnot
    refine hbom ((bom_writeCsv hd fun row hrow => (hwell row hrow).1).mpr ?_)
    cases hrows : d.data with
    | nil => simp [hrows] at hc
    | cons row rows =>
      cases row with
      | nil => simp [hrows] at hc
      | cons c' cells =>
        obtain rfl : c' = c := by simpa [hrows] using hc
        exact ⟨c', cells, rows, rfl, hnot⟩
  · intro hnil
    have hhas := congrArg (fun d => d.separatorParams.hasCR) hread
    simpa [shownDocument, skipBom, bomU8, CsvDocument.writeCsv, hnil] using hhas

/-- A document comes back from the file it was saved in if and only if no cell has a part of a
line end, none outside quotes looks like one in quotes, and none but the last of its row leaves
a quote open. -/
theorem readCsv_writeCsv : d.readCsv d.writeCsv = d ↔ Survives d :=
  ⟨read_survives hd, survives_read hd⟩

end Plain

/-- A cell with a separator and a quote, and one that leaves a quote open at the end of its row. -/
theorem readCsv_writeCsv_open :
    ∃ d : CsvDocument, d.data = [[[97, 44, 34], [34, 98]]] ∧ d.readCsv d.writeCsv = d := by
  have hd : Plain ⟨⟨0, -1⟩, {}, {}, [[[97, 44, 34], [34, 98]]]⟩ :=
    ⟨lined_labelled, rfl, rfl, by decide⟩
  refine ⟨_, rfl, (readCsv_writeCsv hd).mpr ⟨?_, by decide, by decide⟩⟩
  intro row hrow
  obtain rfl := List.mem_singleton.mp hrow
  exact ⟨by decide, by decide, by decide, by decide⟩

end CsvRoundTrip
