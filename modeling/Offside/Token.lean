import Offside.Diagnostic
import Offside.Number

/-!
# Tokens

A token is a word, a mark or a literal of the language, or one of the four structural tokens that
stand for line ends, indentation and the end of the text. Tokens carry their text, their line and
the bytes they cover, so that a diagnostic can be pinned to them.
-/

namespace Offside

/-- The kinds of tokens. The kind `invalid` is for a token that stands for unreadable text; scanning
never makes one, and no rule of the grammar takes one. -/
inductive Kind
  -- marks
  | leftParen | rightParen | comma | minus | plus | slash | asterisk
  | equal | greater | greaterEqual | less | lessEqual
  -- names and literals
  | identifier | text | number
  -- reserved words
  | acceptWord | andWord | changeWord | createWord | defineWord | emptyWord | equalsWord | falseWord
  | ifWord | notWord | orWord | otherwiseWord | repeatWord | returnWord | timesWord | trueWord
  | unequalsWord | whileWord | withWord
  -- structure
  | newline | indent | dedent | endOfFile
  | invalid
  deriving DecidableEq, Repr, Inhabited

namespace Kind

/-- The reserved words with their kinds. -/
def reservedWords : List (String × Kind) :=
  [("accept", acceptWord), ("and", andWord), ("change", changeWord), ("create", createWord),
   ("define", defineWord), ("empty", emptyWord), ("equals", equalsWord), ("false", falseWord),
   ("if", ifWord), ("not", notWord), ("or", orWord), ("otherwise", otherwiseWord),
   ("repeat", repeatWord), ("return", returnWord), ("times", timesWord), ("true", trueWord),
   ("unequals", unequalsWord), ("while", whileWord), ("with", withWord)]

/-- The kind of a word: its own if it is reserved, else an identifier. -/
def ofWord (word : String) : Kind := (reservedWords.lookup word).getD identifier

/-- Whether a token of this kind can only stand at the start of a statement. -/
def startsStatement : Kind → Bool
  | changeWord | createWord | defineWord | ifWord | repeatWord | returnWord => true
  | _ => false

/-- Whether a kind stands for the layout of lines instead of text on a line. -/
def isStructural : Kind → Bool
  | newline | indent | dedent | endOfFile => true
  | _ => false

end Kind

/-- The value that a literal token denotes. -/
inductive Literal
  | number (value : Number)
  | text (value : String)
  deriving DecidableEq, Repr

/-- A token. -/
structure Token where
  kind : Kind
  lexeme : String
  literal : Option Literal := none
  line : Nat
  span : Span
  deriving DecidableEq, Repr, Inhabited

namespace Token

/-- The place that a diagnostic at a token names. -/
def place (t : Token) : Place :=
  match t.kind with
  | .dedent => .endOfBlock
  | .endOfFile => .endOfFile
  | .indent => .indentation
  | .newline => .endOfLine
  | _ => .lexeme t.lexeme

/-- A diagnostic pinned to a token. -/
def diagnose (t : Token) (cause : Cause) : Diagnostic :=
  { cause := cause, line := t.line, place := t.place, span := t.span }

end Token

end Offside
