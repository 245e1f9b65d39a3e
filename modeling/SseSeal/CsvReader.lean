import Mathlib.Data.List.DropRight
import SseSeal.Bytes

/-! The reader and the writer of CSV files. The reader takes the file in blocks and keeps the
row, the cell and whether it stands inside quotes from one byte to the next. -/
namespace CsvReader

open Bytes

def quote : UInt8 := 34
def space : UInt8 := 32
def carriageReturn : UInt8 := 13
def lineFeed : UInt8 := 10

structure LabelParams where
  columnNameIdx : ℤ
  rowNameIdx : ℤ
  deriving DecidableEq

structure SeparatorParams where
  separator : UInt8 := 44
  trim : Bool := false
  hasCR : Bool := false
  quotedLinebreaks : Bool := false
  autoQuote : Bool := true
  deriving DecidableEq

structure LineReaderParams where
  skipCommentLines : Bool := false
  commentPrefix : UInt8 := 35
  skipEmptyLines : Bool := false
  deriving DecidableEq

structure CsvDocument where
  labelParams : LabelParams
  separatorParams : SeparatorParams
  lineReaderParams : LineReaderParams
  data : List (List Str)
  deriving DecidableEq

/-- `ReplaceString`: each match from the left, without overlap. -/
def replaceString (search replace : Str) : Str → Str
  | [] => []
  | c :: s =>
    if search.isPrefixOf (c :: s) ∧ 0 < search.length then
      replace ++ replaceString search replace ((c :: s).drop search.length)
    else c :: replaceString search replace s
termination_by s => s.length
decreasing_by
  · simp only [List.length_drop, List.length_cons]
    omega
  · simp

def isSpace (c : UInt8) : Bool := c = 32 ∨ 9 ≤ c ∧ c ≤ 13

section Cells

variable (p : SeparatorParams)

def trim (s : Str) : Str := if p.trim then (s.dropWhile isSpace).rdropWhile isSpace else s

def unquote (s : Str) : Str :=
  if p.autoQuote ∧ 2 ≤ s.length ∧ s.head? = some quote ∧ s.getLast? = some quote then
    replaceString [quote, quote] [quote] ((s.drop 1).take (s.length - 2))
  else s

def cellValue (s : Str) : Str := unquote p (trim p s)

end Cells

/-- The locals of `ParseCsv`, with the rows so far. -/
structure Reader where
  data : List (List Str)
  row : List Str
  cell : Str
  quoted : Bool
  cr : ℕ
  lf : ℕ

namespace Reader

section Step

variable (p : SeparatorParams) (q : LineReaderParams)

def append (s : Reader) (c : UInt8) : Reader := { s with cell := s.cell ++ [c] }

def endCell (s : Reader) : Reader := { s with row := s.row ++ [cellValue p s.cell], cell := [] }

/-- A line feed that is not part of a cell. -/
def endLine (s : Reader) : Reader :=
  if q.skipEmptyLines ∧ s.row = [] ∧ s.cell = [] then s
  else
    let row := s.row ++ [cellValue p s.cell]
    let comment := q.skipCommentLines ∧ (row.headD []).head? = some q.commentPrefix
    { s with
      data := if comment then s.data else s.data ++ [row]
      row := []
      cell := []
      quoted := false }

def step (s : Reader) (c : UInt8) : Reader :=
  if c = quote then
    { s with
      quoted := if s.cell = [] ∨ s.cell.head? = some quote then !s.quoted else s.quoted
      cell := s.cell ++ [c] }
  else if c = p.separator then
    if s.quoted then s.append c else s.endCell p
  else if c = carriageReturn then
    if p.quotedLinebreaks ∧ s.quoted then s.append c else { s with cr := s.cr + 1 }
  else if c = lineFeed then
    if p.quotedLinebreaks ∧ s.quoted then s.append c
    else ({ s with lf := s.lf + 1 } : Reader).endLine p q
  else s.append c

def run (s : Reader) (bytes : Str) : Reader := bytes.foldl (step p q) s

def bufLength : ℕ := 64 * 1024

def readBlocks (s : Reader) (stream : Str) : Reader :=
  if stream = [] then s
  else (s.run p q (stream.take bufLength)).readBlocks (stream.drop bufLength)
termination_by stream.length
decreasing_by
  have hpos : 0 < stream.length := List.length_pos_iff.mpr ‹_›
  rw [List.length_drop, bufLength]
  omega

/-- A last line without a line feed is a row as it is. -/
def lastLine (s : Reader) : Reader :=
  if s.cell = [] ∧ s.row = [] then s
  else { s with data := s.data ++ [s.row ++ [cellValue p s.cell]], cell := [], row := [] }

end Step

end Reader

def bomU8 : Str := [0xef, 0xbb, 0xbf]

def skipBom (stream : Str) : Str := if bomU8.isPrefixOf stream then stream.drop 3 else stream

namespace CsvDocument

def parseCsv (d : CsvDocument) (stream : Str) : CsvDocument :=
  let start : Reader := ⟨d.data, [], [], false, 0, 0⟩
  let s := (start.readBlocks d.separatorParams d.lineReaderParams stream).lastLine
    d.separatorParams
  { d with
    separatorParams := { d.separatorParams with hasCR := decide (s.lf / 2 < s.cr) }
    data := s.data }

def readCsv (d : CsvDocument) (stream : Str) : CsvDocument :=
  ({ d with data := [] } : CsvDocument).parseCsv (skipBom stream)

def writeCell (d : CsvDocument) (c : Str) : Str :=
  if d.separatorParams.autoQuote ∧ (d.separatorParams.separator ∈ c ∨ space ∈ c) then
    [quote] ++ replaceString [quote] [quote, quote] c ++ [quote]
  else c

/-- The loop of `WriteCsv` over the cells of a row. -/
def writeRow (d : CsvDocument) : List Str → Str
  | [] => []
  | [c] => d.writeCell c
  | c :: row => d.writeCell c ++ d.separatorParams.separator :: d.writeRow row

def lineEnd (d : CsvDocument) : Str :=
  if d.separatorParams.hasCR then [carriageReturn, lineFeed] else [lineFeed]

def writeCsv (d : CsvDocument) : Str := d.data.flatMap fun row => d.writeRow row ++ d.lineEnd

def dataRows (d : CsvDocument) : List (List Str) :=
  d.data.drop (d.labelParams.columnNameIdx + 1).toNat

def dataCells (d : CsvDocument) (row : List Str) : List Str :=
  row.drop (d.labelParams.rowNameIdx + 1).toNat

def getColumnCount (d : CsvDocument) : ℕ :=
  ((d.data.headD []).length - (d.labelParams.rowNameIdx + 1)).toNat

/-- `GetColumnNames`, which throws if there is no row of labels. -/
def getColumnNames (d : CsvDocument) : Option (List Str) :=
  if 0 ≤ d.labelParams.columnNameIdx then
    d.data[d.labelParams.columnNameIdx.toNat]?.map d.dataCells
  else some []

/-- `GetColumn`, which throws at a row that is too short. -/
def getColumn (d : CsvDocument) (columnIdx : ℕ) : Option (List Str) :=
  d.dataRows.mapM fun row => row[columnIdx + (d.labelParams.rowNameIdx + 1).toNat]?

def getRow (d : CsvDocument) (rowIdx : ℕ) : Option (List Str) :=
  d.data[rowIdx + (d.labelParams.columnNameIdx + 1).toNat]?.map d.dataCells

def labelled : CsvDocument := ⟨⟨0, -1⟩, {}, {}, []⟩

end CsvDocument

end CsvReader
