import Offside.Text.EastAsianWide
import Offside.Text.GraphemeExtend

/-!
# Display widths

The number of columns that a character takes on a display of fixed-width cells, by its properties in
version 15.1 of Unicode: two for the wide and fullwidth characters of East Asian scripts and for
most pictographs, none for control characters, for characters that are not shown and for those that
are drawn on their neighbours, and one for all else.

* `defaultIgnorableRanges`, `isGraphemeExtend`, `doubleExtendRanges`, `hangulVowelOrFinalRanges`,
  `attachedRanges`: the characters that take no column;
* `isEastAsianWide`: those that take two;
* `singularWidths`: the few that these classes misjudge;
* `width`: the columns of a character.
-/

namespace Offside.Text

/-- The code points with the property Default_Ignorable_Code_Point, as inclusive ranges: they are
not shown. -/
def defaultIgnorableRanges : List (Nat × Nat) :=
  [(0x00AD, 0x00AD), (0x034F, 0x034F), (0x061C, 0x061C), (0x115F, 0x1160), (0x17B4, 0x17B5),
   (0x180B, 0x180F), (0x200B, 0x200F), (0x202A, 0x202E), (0x2060, 0x206F), (0x3164, 0x3164),
   (0xFE00, 0xFE0F), (0xFEFF, 0xFEFF), (0xFFA0, 0xFFA0), (0xFFF0, 0xFFF8), (0x1BCA0, 0x1BCA3),
   (0x1D173, 0x1D17A), (0xE0000, 0xE0FFF)]

/-- The Kannada and Balinese vowel signs that decompose into two characters with the property
Grapheme_Extend, while they lack it themselves. -/
def doubleExtendRanges : List (Nat × Nat) :=
  [(0x0CC0, 0x0CC0), (0x0CC7, 0x0CC8), (0x0CCA, 0x0CCB), (0x1B3B, 0x1B3B), (0x1B3D, 0x1B3D),
   (0x1B43, 0x1B43)]

/-- The vowels and final consonants of composed Hangul syllables, which share the cells of the
initial consonant. -/
def hangulVowelOrFinalRanges : List (Nat × Nat) :=
  [(0x1160, 0x11FF), (0xD7B0, 0xD7C6), (0xD7CB, 0xD7FB)]

/-- The signs without a cell of their own that are drawn on the characters beside them: the marks
over a number, an abbreviation or a verse, the Devanagari caret and the prepended forms of Indic
consonants. -/
def attachedRanges : List (Nat × Nat) :=
  [(0x0605, 0x0605), (0x070F, 0x070F), (0x0890, 0x0891), (0x08E2, 0x08E2), (0x0D4E, 0x0D4E),
   (0xA8FA, 0xA8FA), (0x111C2, 0x111C3), (0x1193F, 0x1193F), (0x11941, 0x11941),
   (0x11A3A, 0x11A3A), (0x11A84, 0x11A89), (0x11D46, 0x11D46), (0x11F02, 0x11F02)]

/-- The code points whose width does not follow from their properties: the filler for an initial
Hangul consonant is as wide as a consonant, two Khmer signs are drawn as two and as three letters,
and the Tifinagh joiner is shown as a letter. -/
def singularWidths : List (Nat × Nat) := [(0x115F, 2), (0x17A4, 2), (0x17D8, 3), (0x2D7F, 1)]

/-- Whether a code point is a control character. -/
def isControl (n : Nat) : Bool := n < 0x20 || (0x7F ≤ n && n < 0xA0)

/-- Whether a code point takes no column, unless it is one of `singularWidths`. -/
def isZeroWidth (n : Nat) : Bool :=
  isControl n || inRanges defaultIgnorableRanges n || isGraphemeExtend n ||
    inRanges doubleExtendRanges n || inRanges hangulVowelOrFinalRanges n ||
    inRanges attachedRanges n

/-- The number of columns that a code point takes. -/
def widthOf (n : Nat) : Nat :=
  match singularWidths.lookup n with
  | some columns => columns
  | none => if isZeroWidth n then 0 else if isEastAsianWide n then 2 else 1

/-- The number of columns that a character takes. A visible ASCII character, or a space, takes
one. -/
def width (c : Char) : Nat :=
  if 0x20 ≤ c.toNat && c.toNat < 0x7F then 1 else widthOf c.toNat

end Offside.Text
