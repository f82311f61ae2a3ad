import Offside.Piece

/-!
# Layout

Scanning turns a text into tokens by the offside rule. A line that is neither blank nor only a
comment first says how its indentation compares with the open levels: deeper opens a level with an
indent token, shallower closes levels with dedent tokens. Its own tokens follow, and a newline token
ends it. Levels still open at the end of the text are closed there, and an end token comes last.

Indentation is measured twice, with a tab going to the next multiple of eight columns and with a tab
counting as one. Two lines are consistently indented only if both measures compare them alike, so a
mixture of tabs and spaces whose meaning hangs on the width of a tab is reported.

Faults are recorded and scanning goes on, so every text has a token stream.

* `Indent`, `Indent.ofChars`: the two measures of leading blanks;
* `Layout.shift`: the levels, tokens and faults that the indentation of one line brings about;
* `Layout.scanLine`, `Layout.scan`: the tokens and faults of a line and of a text.
-/

namespace Offside

/-! ### Indentation -/

/-- The indentation of a line, measured twice. -/
structure Indent where
  /-- The column, with tab stops at the multiples of eight. -/
  column : Nat
  /-- The column when a tab counts as one. -/
  alternate : Nat
  deriving DecidableEq, Repr

namespace Indent

/-- The distance between tab stops. -/
def tabStop : Nat := 8

/-- No indentation. It lies below every level and is never closed. -/
def base : Indent := ⟨0, 0⟩

/-- The characters that indentation consists of. -/
def isPart (c : Char) : Bool := c = ' ' || c = '\t' || c = '\x0c'

/-- The indentation after one more character; a form feed starts it afresh. -/
def advance (i : Indent) (c : Char) : Indent :=
  if c = ' ' then ⟨i.column + 1, i.alternate + 1⟩
  else if c = '\t' then ⟨(i.column / tabStop + 1) * tabStop, i.alternate + 1⟩
  else base

/-- The indentation that leading blanks make. -/
def ofChars (cs : List Char) : Indent := cs.foldl advance base

end Indent

/-- The tokens and faults found in a stretch of text, in order. -/
structure Scan where
  tokens : List Token
  errors : List Diagnostic
  deriving DecidableEq, Repr

/-- Two stretches, one after the other. -/
def Scan.append (a b : Scan) : Scan := ⟨a.tokens ++ b.tokens, a.errors ++ b.errors⟩

instance : Append Scan := ⟨Scan.append⟩

namespace Layout

/-- The greatest number of levels that may be open at once. -/
def maxDepth : Nat := 100

/-! ### The indentation of a line -/

/-- The innermost open level. -/
def top (levels : List Indent) : Indent := levels.headD Indent.base

/-- A diagnostic at an indentation token. -/
def fault (mark : Token) (e : LexicalError) : Diagnostic := mark.diagnose (.lexical e)

/-- What a line deeper than the innermost level brings about: a level of its own. It should be
deeper by the other measure too, and there should be room for it. -/
def deepen (levels : List Indent) (current : Indent) (mark : Token) : Scan :=
  { tokens := [mark]
    errors :=
      (if current.alternate ≤ (top levels).alternate then [fault mark .inconsistentIndentation]
        else []) ++
      (if maxDepth ≤ levels.length then [fault mark (.indentationTooDeep maxDepth)] else []) }

/-- The levels that stay open under a line of a given column. -/
def keep (levels : List Indent) (column : Nat) : List Indent :=
  levels.dropWhile fun level => column < level.column

/-- What a line shallower than the innermost level brings about: the end of the levels deeper than
it. The level it comes back to should be its own, by both measures. -/
def shrink (levels : List Indent) (current : Indent) (mark : Token) : Scan :=
  let kept := keep levels current.column
  let closing : Token :=
    { kind := .dedent, lexeme := "", line := mark.line, span := Span.empty mark.span.stop }
  { tokens := List.replicate (levels.length - kept.length) closing
    errors :=
      if current.column ≠ (top kept).column then [fault mark .unmatchedIndentation]
      else if current.alternate ≠ (top kept).alternate then [fault mark .inconsistentIndentation]
      else [] }

/-- The open levels, innermost first, after a line with indentation `current`, and the tokens and
faults it brings about; `mark` is the indent token of the line. -/
def shift (levels : List Indent) (current : Indent) (mark : Token) : List Indent × Scan :=
  if current.column = (top levels).column then
    (levels,
      ⟨[], if current.alternate ≠ (top levels).alternate then [fault mark .inconsistentIndentation]
        else []⟩)
  else if (top levels).column < current.column then
    (current :: levels, deepen levels current mark)
  else (keep levels current.column, shrink levels current mark)

/-! ### The tokens of a line -/

/-- The literal that a token of a given kind and text denotes: the value of a number, the
characters between the quotes of a text. -/
def literal? (kind : Kind) (chars : List Char) : Option Literal :=
  match kind with
  | .number => some (.number (Number.ofDecimalText chars))
  | .text => some (.text (String.ofList chars.tail.dropLast))
  | _ => none

/-- The tokens and faults of the pieces that stand on line `number` from byte `offset` on. -/
def scanPieces (number : Nat) : Nat → List Piece → Scan
  | _, [] => ⟨[], []⟩
  | offset, piece :: pieces =>
    let lexeme := String.ofList piece.chars
    let span : Span := ⟨offset, offset + Text.size piece.chars⟩
    let rest := scanPieces number span.stop pieces
    let faulty (e : LexicalError) : Diagnostic :=
      { cause := .lexical e, line := number, place := .lexeme lexeme, span := span }
    match piece.cls with
    | .gap | .comment => rest
    | .token kind =>
      let token : Token :=
        { kind := kind, lexeme := lexeme, literal := literal? kind piece.chars, line := number,
          span := span }
      ⟨token :: rest.tokens, rest.errors⟩
    | .openText => ⟨rest.tokens, faulty .unterminatedText :: rest.errors⟩
    | .stray => ⟨rest.tokens, faulty .unexpectedCharacter :: rest.errors⟩

/-- Whether what follows the indentation of a line makes the line invisible: only white space, or a
comment. -/
def isInvisible (body : List Char) : Bool := Text.isBlank body || ['/', '/'].isPrefixOf body

/-- The levels open after line `number`, which starts at byte `offset`, and its tokens and
faults. -/
def scanLine (levels : List Indent) (number offset : Nat) (line : Text.Line) :
    List Indent × Scan :=
  let blanks := line.text.takeWhile Indent.isPart
  let body := line.text.dropWhile Indent.isPart
  if isInvisible body then (levels, ⟨[], []⟩)
  else
    let start := offset + Text.size blanks
    let mark : Token :=
      { kind := .indent, lexeme := String.ofList blanks, line := number, span := ⟨offset, start⟩ }
    let (levels, opening) := shift levels (Indent.ofChars blanks) mark
    let stop := offset + Text.size line.text
    let ending : Token :=
      { kind := .newline, lexeme := "\n", line := number, span := ⟨stop, offset + line.size⟩ }
    (levels, opening ++ scanPieces number start (Piece.cut body) ++ ⟨[ending], []⟩)

/-! ### The tokens of a text -/

/-- The end of a text of `offset` bytes and `number` lines: the open levels are closed. They should
all be closed by then, unless a line feed ends the last line. -/
def close (levels : List Indent) (number offset : Nat) (ended : Bool) : Scan :=
  let last : Token :=
    { kind := .endOfFile, lexeme := "", line := max number 1, span := Span.empty offset }
  { tokens := List.replicate levels.length { last with kind := .dedent } ++ [last]
    errors := if ended || levels.isEmpty then [] else [fault last .missingFinalNewline] }

/-- The tokens and faults of the lines after the first `number`, which take `offset` bytes and leave
`levels` open; `ended` says whether a line feed ends the last of them. -/
def scanFrom (levels : List Indent) (number offset : Nat) (ended : Bool) : List Text.Line → Scan
  | [] => close levels number offset ended
  | line :: lines =>
    let (levels, scan) := scanLine levels (number + 1) offset line
    scan ++ scanFrom levels (number + 1) (offset + line.size) line.ended lines

/-- The tokens and faults of a text. -/
def scan (cs : List Char) : Scan := scanFrom [] 0 0 true (Text.lines cs)

end Layout

end Offside
