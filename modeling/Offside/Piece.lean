import Offside.Token

/-!
# Pieces of a line

A text without layout is cut into pieces from left to right. Each piece is the longest one that can
start where it starts: a run of blanks, a comment up to the end of its line, a token, a text literal
that its line leaves open, or else a single character that starts nothing. Nothing is lost: the
pieces in order are the text.

* `Piece.classify`: what starts with a given character, and how many more characters it takes;
* `Piece.cut`: the pieces of a text.
-/

namespace Offside

/-- What a piece of text is. -/
inductive PieceClass
  /-- Spaces, tabs, carriage returns and form feeds between tokens. -/
  | gap
  /-- Two slashes and what follows them on the line. -/
  | comment
  | token (kind : Kind)
  /-- A text literal without its closing quote, up to the end of the line. -/
  | openText
  /-- A character that starts nothing. -/
  | stray
  deriving DecidableEq, Repr

/-- A piece of text. -/
structure Piece where
  cls : PieceClass
  chars : List Char
  deriving DecidableEq, Repr

namespace Piece

/-! ### Character classes -/

/-- The characters that separate tokens within a line. -/
def isGap (c : Char) : Bool := c = ' ' || c = '\t' || c = '\r' || c = '\x0c'

/-- The decimal digits. -/
def isDigit (c : Char) : Bool := '0' ≤ c && c ≤ '9'

/-- The characters a word can start with. -/
def isWordStart (c : Char) : Bool := 'a' ≤ c && c ≤ 'z' || 'A' ≤ c && c ≤ 'Z' || c = '_'

/-- The characters a word can go on with. -/
def isWordPart (c : Char) : Bool := isWordStart c || isDigit c

/-- The characters of a text literal between its quotes. -/
def isTextPart (c : Char) : Bool := c ≠ '"' && c ≠ '\n'

/-- The kind of a mark of one character. -/
def mark? (c : Char) : Option Kind :=
  match c with
  | '(' => some .leftParen
  | ')' => some .rightParen
  | ',' => some .comma
  | '-' => some .minus
  | '+' => some .plus
  | '/' => some .slash
  | '*' => some .asterisk
  | '=' => some .equal
  | '>' => some .greater
  | '<' => some .less
  | _ => none

/-- The kind of a mark of two characters. -/
def doubleMark? (c d : Char) : Option Kind :=
  match c, d with
  | '>', '=' => some .greaterEqual
  | '<', '=' => some .lessEqual
  | _, _ => none

/-! ### Cutting -/

/-- The number of characters at the front of a text that satisfy a test. -/
def run (p : Char → Bool) (cs : List Char) : Nat := (cs.takeWhile p).length

/-- The number of characters that the fraction of a number takes: a dot counts only before a
digit. -/
def fractionLength : List Char → Nat
  | '.' :: cs => if run isDigit cs = 0 then 0 else run isDigit cs + 1
  | _ => 0

/-- What starts with `c` before `rest`, and how many characters of `rest` it takes. -/
def classify (c : Char) (rest : List Char) : PieceClass × Nat :=
  if isGap c then (.gap, run isGap rest)
  else if c = '/' && rest.head? = some '/' then (.comment, run (· ≠ '\n') rest)
  else if c = '"' then
    let length := run isTextPart rest
    if (rest.drop length).head? = some '"' then (.token .text, length + 1) else (.openText, length)
  else if isDigit c then
    let length := run isDigit rest
    (.token .number, length + fractionLength (rest.drop length))
  else if isWordStart c then
    let length := run isWordPart rest
    (.token (Kind.ofWord (String.ofList (c :: rest.take length))), length)
  else
    match rest.head?.bind (doubleMark? c) with
    | some kind => (.token kind, 1)
    | none =>
      match mark? c with
      | some kind => (.token kind, 0)
      | none => (.stray, 0)

/-- The pieces of a text after `skip` of its characters. -/
def cutAfter (skip : Nat) : List Char → List Piece
  | [] => []
  | c :: cs =>
    match skip with
    | skip + 1 => cutAfter skip cs
    | 0 =>
      let (cls, length) := classify c cs
      ⟨cls, c :: cs.take length⟩ :: cutAfter length cs

/-- The pieces of a text. -/
def cut (cs : List Char) : List Piece := cutAfter 0 cs

theorem cutAfter_eq_cut_drop (skip : Nat) (cs : List Char) :
    cutAfter skip cs = cut (cs.drop skip) := by
  induction cs generalizing skip with
  | nil => simp [cut, cutAfter]
  | cons c cs ih =>
    cases skip with
    | zero => rfl
    | succ skip => simpa [cutAfter] using ih skip

@[simp] theorem cut_nil : cut [] = [] := rfl

theorem cut_cons (c : Char) (cs : List Char) :
    cut (c :: cs) = ⟨(classify c cs).1, c :: cs.take (classify c cs).2⟩ ::
      cut (cs.drop (classify c cs).2) := by
  rw [← cutAfter_eq_cut_drop]
  rfl

/-- The pieces in order are the text. -/
theorem flatMap_chars_cut (cs : List Char) : (cut cs).flatMap chars = cs := by
  suffices h : ∀ skip, (cutAfter skip cs).flatMap chars = cs.drop skip from h 0
  intro skip
  induction cs generalizing skip with
  | nil => simp [cutAfter]
  | cons c cs ih =>
    cases skip with
    | zero => simp [cutAfter, ih]
    | succ skip => simpa [cutAfter] using ih skip

end Piece

end Offside
