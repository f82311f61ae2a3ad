import Offside.Diagnostic
import Offside.Text.Width

/-!
# Reports

A report shows diagnostics in the order of the texts they point into, each with the line it points
at and carets under what it covers. A diagnostic that covers a line ending is shown across its
lines, joined by a bracket in the margin, and a break stands for the middle of a long one. One that
points into no text, or past the end of its text, is given on one line.

* `Row`, `rows`: the lines of a text, with the byte each starts at;
* `Cell`, `cells`: the characters of a line, with the columns each takes;
* `Report.entry`: the text for one diagnostic;
* `Report.render`: the text for several.
-/

namespace Offside

namespace Report

/-- The name that texts go by. -/
def unitName : String := "<script>"

/-! ### Rows and cells -/

/-- A line of a text, without its ending. Every line feed starts a new one. -/
structure Row where
  /-- The number of the line, from one. -/
  number : Nat
  /-- The offset of its first byte. -/
  start : Nat
  text : List Char
  deriving DecidableEq, Repr

/-- The rows of a text whose first row has already shown `seen`, latest character first. -/
def rowsFrom (number start : Nat) (seen : List Char) : List Char → List Row
  | [] => [⟨number, start, seen.reverse⟩]
  | c :: cs =>
    if c = '\n' then
      ⟨number, start, seen.reverse⟩ :: rowsFrom (number + 1) (start + Text.size seen + 1) [] cs
    else rowsFrom number start (c :: seen) cs

/-- The rows of a text. -/
def rows (cs : List Char) : List Row := rowsFrom 1 0 [] cs

/-- The row that a byte belongs to: the last one that starts at it or before it. -/
def rowAt (cs : List Char) (offset : Nat) : Row :=
  ((rows cs).filter fun row => row.start ≤ offset).getLast?.getD ⟨1, 0, []⟩

/-- The rows strictly between two rows. -/
def rowsBetween (cs : List Char) (low high : Row) : List Row :=
  (rows cs).filter fun row => low.number < row.number && row.number < high.number

/-- The part of a row that is shown: without line endings and null characters at its end. -/
def shown (row : Row) : List Char :=
  (row.text.reverse.dropWhile fun c => c = '\n' || c = '\r' || c = '\x00').reverse

/-- The distance between tab stops in a report. -/
def tabStop : Nat := 4

/-- A character of a row, with its offset in the row and the number of columns it takes. -/
structure Cell where
  char : Char
  offset : Nat
  width : Nat
  deriving DecidableEq, Repr

/-- The offset just after a cell. -/
def Cell.stop (cell : Cell) : Nat := cell.offset + cell.char.utf8Size

/-- The columns that a character at a given column takes; a tab goes to the next tab stop. -/
def widthAt (column : Nat) (c : Char) : Nat :=
  if c = '\t' then tabStop - column % tabStop else Text.width c

/-- The cells of a text that starts at a given offset and column. -/
def cellsFrom (offset column : Nat) : List Char → List Cell
  | [] => []
  | c :: cs =>
    ⟨c, offset, widthAt column c⟩ :: cellsFrom (offset + c.utf8Size) (column + widthAt column c) cs

/-- The cells of a text. -/
def cells (cs : List Char) : List Cell := cellsFrom 0 0 cs

/-- A character several times. -/
def times (n : Nat) (c : Char) : List Char := List.replicate n c

/-- A text with its tabs spread over the columns they take. -/
def spread (cs : List Char) : List Char :=
  (cells cs).flatMap fun cell => if cell.char = '\t' then times cell.width ' ' else [cell.char]

/-! ### Carets -/

/-- The marks under a cell, for carets from byte `start` up to byte `stop` of the row. -/
def caretsUnder (start stop : Nat) (cell : Cell) : List Char :=
  if max start cell.offset < min stop cell.stop then times cell.width '^'
  else if cell.offset < stop then times cell.width ' '
  else []

/-- The marks under a text. There is room for one more caret after its end, and an empty range has a
caret too. -/
def carets (cs : List Char) (start stop : Nat) : List Char :=
  let after : Cell := ⟨' ', Text.size cs, 1⟩
  (cells cs ++ [after]).flatMap (caretsUnder start (max stop (start + 1)))

/-- A stroke under the cells that start before a given byte, and a caret at its end. -/
def stroke (cs : List Char) (stop : Nat) : List Char :=
  ((cells cs).filter fun cell => cell.offset < stop).flatMap (fun cell => times cell.width '─') ++
    ['^']

/-! ### One diagnostic -/

/-- A line of a report, after a margin of `margin` columns that shows `label` at its right. -/
def marginLine (margin : Nat) (label : String) (body : String) : String :=
  String.ofList (times (margin - label.length) ' ') ++ label ++ " " ++ body ++ "\n"

/-- The row and the carets of a diagnostic within a row. -/
def snippetWithin (margin : Nat) (row : Row) (span : Span) : String :=
  let text := shown row
  marginLine margin (toString row.number) ("│ " ++ String.ofList (spread text)) ++
    marginLine margin ""
      ("│ " ++ String.ofList (carets text (span.start - row.start) (span.stop - row.start)))

/-- The row where a bracket begins. The bracket starts in the margin if only white space stands
before the diagnostic, and under the row otherwise. -/
def bracketStart (margin : Nat) (row : Row) (span : Span) : String :=
  let text := shown row
  let start := span.start - row.start
  if start ≤ Text.size (text.takeWhile Text.isWhiteSpace) then
    marginLine margin (toString row.number) ("│ ╭ " ++ String.ofList (spread text))
  else
    marginLine margin (toString row.number) ("│   " ++ String.ofList (spread text)) ++
      marginLine margin "" ("│ ╭" ++ String.ofList (stroke text (start + 1)))

/-- A row beside a stretch of a bracket, which is drawn as `bar`. -/
def bracketRow (margin : Nat) (bar : String) (row : Row) : String :=
  marginLine margin (toString row.number) ("│ " ++ bar ++ " " ++ String.ofList (spread (shown row)))

/-- The row where a bracket ends. -/
def bracketEnd (margin : Nat) (row : Row) (span : Span) : String :=
  bracketRow margin "│" row ++
    marginLine margin "" ("│ ╰" ++ String.ofList (stroke (shown row) (span.stop - row.start)))

/-- Rows that a break stands for, unless there is only one; that one has `bar` beside it. A break is
drawn with the bracket, also outside it. -/
def elided (margin : Nat) (bar : String) : List Row → String
  | [] => ""
  | [row] => bracketRow margin bar row
  | _ => marginLine margin "" "· │"

/-- The number of rows that are always shown after the one where a bracket begins. -/
def leadingRows : Nat := 3

/-- The rows inside a bracket: the first few, the last, and what stands for those between. -/
def bracketInner (margin : Nat) (inner : List Row) : String :=
  let rest := inner.drop leadingRows
  String.join ((inner.take leadingRows).map (bracketRow margin "│")) ++
    elided margin "│" rest.dropLast ++
    String.join (rest.getLast?.toList.map (bracketRow margin "│"))

/-- The rows of a diagnostic between two lines of margin, for a diagnostic from the row `first` to
the row `last`. Rows are shown in the order of the text, also when the diagnostic ends before it
begins. -/
def snippet (source : List Char) (margin : Nat) (first last : Row) (span : Span) : String :=
  if first.number = last.number then
    marginLine margin "" "│" ++ snippetWithin margin first span ++ marginLine margin "" "│"
  else if first.number < last.number then
    marginLine margin "" "│  " ++ bracketStart margin first span ++
      bracketInner margin (rowsBetween source first last) ++ bracketEnd margin last span ++
      marginLine margin "" "│  "
  else
    marginLine margin "" "│  " ++ bracketEnd margin last span ++
      elided margin " " (rowsBetween source last first) ++ bracketStart margin first span ++
      marginLine margin "" "│  "

/-- The column of a byte in a row: one more than the number of characters before it. -/
def columnOf (row : Row) (offset : Nat) : Nat :=
  ((cells row.text).filter fun cell => cell.stop ≤ offset - row.start).length + 1

/-- A line of a note: without its ending, be it a line feed or a carriage return and a line feed. -/
def noteLine (line : Text.Line) : List Char :=
  if line.ended && line.text.getLast? == some '\r' then line.text.dropLast else line.text

/-- The lines of a note after its first, in line with the first. -/
def noteRest (margin : Nat) (lines : List Text.Line) : String :=
  String.join (lines.map fun line => marginLine margin "" ("  " ++ String.ofList (noteLine line)))

/-- A note, with a mark before its first line. -/
def note (margin : Nat) (text : String) : String :=
  match Text.lines text.toList with
  | [] => ""
  | line :: rest =>
    marginLine margin "" ("= " ++ String.ofList (noteLine line)) ++ noteRest margin rest

/-- The text for a diagnostic that lies within its source text. -/
def full (source : List Char) (d : Diagnostic) : String :=
  let first := rowAt source d.span.start
  let last := rowAt source d.span.stop
  let margin := (toString (max first.number last.number)).length
  let position := toString first.number ++ ":" ++ toString (columnOf first d.span.start)
  "error[" ++ d.cause.code ++ "]: " ++ d.cause.message ++ "\n" ++
    marginLine margin "" ("┌─ " ++ unitName ++ ":" ++ position) ++
    snippet source margin first last d.span ++
    note margin ("line " ++ toString d.line ++ ", " ++ d.place.toText) ++ "\n"

/-- The text for a diagnostic. One without a source text of its own is shown against the first. -/
def entry (sources : List (List Char)) (d : Diagnostic) : String :=
  match sources[d.file.getD 0]? with
  | some source => if d.span.stop ≤ Text.size source then full source d else d.toLine ++ "\n"
  | none => d.toLine ++ "\n"

/-! ### Several diagnostics -/

/-- The place of the source text of a diagnostic in the order of a report: those without one come
first. -/
def fileKey (d : Diagnostic) : Nat :=
  match d.file with
  | none => 0
  | some file => file + 1

/-- The order of a report: by source text, then by the start and the end of what is covered. -/
def precedes (a b : Diagnostic) : Bool :=
  fileKey a < fileKey b ||
    (fileKey a = fileKey b &&
      (a.span.start < b.span.start ||
        (a.span.start = b.span.start && a.span.stop ≤ b.span.stop)))

/-- The text for several diagnostics; those that stand at one place keep their order. -/
def render (sources : List (List Char)) (errors : List Diagnostic) : String :=
  String.join ((errors.mergeSort precedes).map (entry sources))

end Report

end Offside
