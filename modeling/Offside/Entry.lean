import Offside.Layout

/-!
# Interactive entries

What an interactive session does with an entry before it is run: it decides whether the entry can be
run as it stands or goes on on a further line, and it colours the entry by its tokens. Gaps and
comments are not tokens, so the text between two tokens is coloured as a whole: plain up to the
first two slashes, and as a comment from there on.

* `Entry.isComplete`: whether an entry can be run as it stands;
* `Entry.highlight`: an entry in colours;
* `Entry.prompt`: what stands beside an entry.
-/

namespace Offside

namespace Entry

/-! ### Completeness -/

/-- Whether a token of this kind announces a block. -/
def opensBlock : Kind → Bool
  | .defineWord | .ifWord | .otherwiseWord | .repeatWord => true
  | _ => false

/-- Whether an entry can be run as it stands. One that announces a block goes on until it ends with
a line feed. -/
def isComplete (cs : List Char) : Bool :=
  Text.endsWithNewline cs || Text.isBlank cs ||
    !(Layout.scan cs).tokens.any fun t => opensBlock t.kind

/-! ### Colours -/

/-- The colours of an entry. -/
inductive Color
  | lightPurple
  | lightCyan
  | lightRed
  | lightGreen
  | lightGray
  | darkGray
  deriving DecidableEq, Repr

/-- A part of an entry, with its colour. -/
structure Styled where
  color : Color
  chars : List Char
  deriving DecidableEq, Repr

/-- The colour of what has no colour of its own. -/
def plain : Color := .lightGray

/-- The colour of a token. -/
def colorOf : Kind → Color
  | .acceptWord | .andWord | .changeWord | .createWord | .defineWord | .equalsWord | .ifWord
  | .notWord | .orWord | .otherwiseWord | .repeatWord | .returnWord | .timesWord | .unequalsWord
  | .whileWord | .withWord => .lightPurple
  | .emptyWord | .falseWord | .number | .trueWord => .lightCyan
  | .identifier => .lightRed
  | .text => .lightGreen
  | _ => plain

/-- The colour of a piece, or none if it belongs to the text between tokens. -/
def colorOfPiece : PieceClass → Option Color
  | .gap | .comment => none
  | .token kind => some (colorOf kind)
  | .openText | .stray => some plain

/-- A text up to its first two slashes, and the rest. -/
def splitAtSlashes : List Char → List Char × List Char
  | [] => ([], [])
  | c :: cs =>
    if c = '/' && cs.head? = some '/' then ([], c :: cs)
    else (c :: (splitAtSlashes cs).1, (splitAtSlashes cs).2)

/-- The text between two tokens in colours. -/
def paintBetween (cs : List Char) : List Styled :=
  if cs.isEmpty then []
  else
    match splitAtSlashes cs with
    | (before, []) => [⟨plain, before⟩]
    | (before, comment) => [⟨plain, before⟩, ⟨.darkGray, comment⟩]

/-- Pieces in colours, where `between` has been read since the last token. -/
def paint (between : List Char) : List Piece → List Styled
  | [] => paintBetween between
  | p :: ps =>
    match colorOfPiece p.cls with
    | none => paint (between ++ p.chars) ps
    | some color => paintBetween between ++ ⟨color, p.chars⟩ :: paint [] ps

/-- An entry in colours. -/
def highlight (cs : List Char) : List Styled := paint [] (Piece.cut cs)

/-! ### Prompt -/

/-- What an interactive session shows beside an entry. -/
structure Prompt where
  left : String
  right : String
  indicator : String
  /-- What stands before the further lines of an entry. -/
  continuation : String
  historySearch : String
  deriving DecidableEq, Repr

/-- The prompt of an interactive session. -/
def prompt : Prompt :=
  { left := ">>> ", right := "", indicator := "", continuation := "... ", historySearch := "" }

end Entry

end Offside
