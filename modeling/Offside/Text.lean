/-!
# Texts and positions

A source text is a list of characters, and every position in it is a byte offset of its UTF-8
form. This file defines

* `Span`, a half-open range of byte offsets;
* `Text.size`, the number of bytes of a text;
* `Text.slice`, the characters at a span;
* `Text.normalizeNewlines`, which leaves the line feed as the only line ending;
* `Text.lines`, the lines of a text, each with the fact whether a line feed ends it;
* `Text.isWhiteSpace`, the Unicode property White_Space.
-/

namespace Offside

/-- A half-open range of byte offsets. -/
structure Span where
  /-- The offset of the first byte. -/
  start : Nat
  /-- The offset just after the last byte. -/
  stop : Nat
  deriving DecidableEq, Hashable, Repr, Inhabited

/-- The empty span at an offset. -/
def Span.empty (offset : Nat) : Span := ⟨offset, offset⟩

namespace Text

/-! ### Size -/

/-- The number of bytes a text takes in UTF-8. -/
def size (cs : List Char) : Nat :=
  cs.foldl (fun n c => n + c.utf8Size) 0

private theorem foldl_utf8Size (cs : List Char) (n : Nat) :
    cs.foldl (fun n c => n + c.utf8Size) n = n + size cs := by
  induction cs generalizing n with
  | nil => rfl
  | cons c cs ih =>
    simp only [size, List.foldl_cons]
    rw [ih, ih (0 + c.utf8Size)]
    omega

@[simp] theorem size_nil : size [] = 0 := rfl

@[simp] theorem size_cons (c : Char) (cs : List Char) : size (c :: cs) = c.utf8Size + size cs := by
  simpa [size] using foldl_utf8Size cs c.utf8Size

@[simp] theorem size_append (as bs : List Char) : size (as ++ bs) = size as + size bs := by
  induction as with
  | nil => simp
  | cons c as ih => simp [ih, Nat.add_assoc]

/-! ### Slices -/

/-- The text without its first `n` bytes; a character cut in two goes too. -/
def dropBytes : Nat → List Char → List Char
  | 0, cs => cs
  | _ + 1, [] => []
  | n + 1, c :: cs => dropBytes (n + 1 - c.utf8Size) cs

/-- The characters that lie within the first `n` bytes. -/
def takeBytes : Nat → List Char → List Char
  | _, [] => []
  | n, c :: cs => if c.utf8Size ≤ n then c :: takeBytes (n - c.utf8Size) cs else []

/-- The characters of a text at a span. -/
def slice (cs : List Char) (span : Span) : List Char :=
  takeBytes (span.stop - span.start) (dropBytes span.start cs)

/-! ### Line endings -/

/-- Replace each carriage return that a line feed follows, together with it, by one line feed. -/
def joinPairs : List Char → List Char
  | [] => []
  | '\r' :: '\n' :: cs => '\n' :: joinPairs cs
  | c :: cs => c :: joinPairs cs

/-- Replace each carriage return by a line feed. -/
def feedReturns (cs : List Char) : List Char :=
  cs.map fun c => if c = '\r' then '\n' else c

/-- Whether a text has a carriage return, and so has line endings other than the line feed. -/
def hasReturn (cs : List Char) : Bool := cs.contains '\r'

/-- Turn every line ending, a pair of carriage return and line feed or a lone carriage return, into
one line feed. -/
def normalizeNewlines (cs : List Char) : List Char :=
  if hasReturn cs then feedReturns (joinPairs cs) else cs

/-! ### Lines -/

/-- A line of a text, without its ending. -/
structure Line where
  /-- The characters before the line feed. -/
  text : List Char
  /-- Whether a line feed ends the line; only the last line of a text can lack one. -/
  ended : Bool
  deriving DecidableEq, Repr

/-- The number of bytes of a line, its ending included. -/
def Line.size (line : Line) : Nat := Text.size line.text + if line.ended then 1 else 0

/-- The lines of a text whose first line has already shown `seen`, latest character first. -/
def linesFrom (seen : List Char) : List Char → List Line
  | [] => if seen.isEmpty then [] else [⟨seen.reverse, false⟩]
  | c :: cs =>
    if c = '\n' then ⟨seen.reverse, true⟩ :: linesFrom [] cs else linesFrom (c :: seen) cs

/-- The lines of a text. The empty text has none, and a final line feed opens no further line. -/
def lines (cs : List Char) : List Line := linesFrom [] cs

/-- Whether a text ends with a line feed. -/
def endsWithNewline (cs : List Char) : Bool := cs.getLast? == some '\n'

/-! ### Character classes -/

/-- Whether a code point lies in one of several inclusive ranges. -/
def inRanges (ranges : List (Nat × Nat)) (n : Nat) : Bool :=
  ranges.any fun r => r.1 ≤ n && n ≤ r.2

/-- The code points with the Unicode property White_Space, as inclusive ranges. -/
def whiteSpaceRanges : List (Nat × Nat) :=
  [(0x09, 0x0D), (0x20, 0x20), (0x85, 0x85), (0xA0, 0xA0), (0x1680, 0x1680), (0x2000, 0x200A),
   (0x2028, 0x2029), (0x202F, 0x202F), (0x205F, 0x205F), (0x3000, 0x3000)]

/-- Whether a character has the Unicode property White_Space. -/
def isWhiteSpace (c : Char) : Bool := inRanges whiteSpaceRanges c.toNat

/-- Whether a text has no character other than white space. -/
def isBlank (cs : List Char) : Bool := cs.all isWhiteSpace

end Text

end Offside
