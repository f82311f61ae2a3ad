import Mathlib.Data.List.TakeWhile
import Offside.Proofs.Nesting

/-!
# The lines that layout sees

A line is its indentation and what follows it. Blank lines and lines with only a comment have no
part in the layout of a text; all other lines are visible. Scanning a text is scanning its lines in
order, each with the levels that the lines before it leave open.

* `Text.lines_flatMap`: a text that is given by its lines;
* `Text.Line.blanks`, `Text.Line.body`, `Text.Line.indent`: a line, taken apart;
* `Text.Line.Visible`: the lines that layout sees;
* `Layout.scanLine_of_visible`: the tokens and faults of such a line;
* `Layout.scanFrom_lines`: a text as its first lines and the rest.
-/

namespace Offside

/-! ### Lines -/

namespace Text

theorem linesFrom_append_feed {line : List Char} (hline : '\n' ∉ line) (seen rest : List Char) :
    linesFrom seen (line ++ '\n' :: rest) = ⟨seen.reverse ++ line, true⟩ :: lines rest := by
  induction line generalizing seen with
  | nil => simp [linesFrom, lines]
  | cons c line ih =>
    obtain ⟨hc, hlater⟩ := not_or.1 (fun h => hline (List.mem_cons.2 h))
    rw [List.cons_append, linesFrom, if_neg (Ne.symm hc), ih hlater]
    simp

/-- The lines of a text that is given by its lines. -/
theorem lines_flatMap {ls : List (List Char)} (h : ∀ l ∈ ls, '\n' ∉ l) :
    lines (ls.flatMap (· ++ ['\n'])) = ls.map (⟨·, true⟩) := by
  induction ls with
  | nil => rfl
  | cons l ls ih =>
    obtain ⟨hl, hls⟩ := List.forall_mem_cons.1 h
    rw [List.flatMap_cons, List.append_assoc, List.singleton_append, lines,
      linesFrom_append_feed hl, ih hls]
    rfl

end Text

/-! ### Parts of a line -/

namespace Text.Line

/-- The indentation of a line. -/
def blanks (l : Line) : List Char := l.text.takeWhile Indent.isPart

/-- What follows the indentation of a line. -/
def body (l : Line) : List Char := l.text.dropWhile Indent.isPart

/-- The indentation of a line, measured. -/
def indent (l : Line) : Indent := Indent.ofChars l.blanks

/-- A line that layout sees: something other than white space is on it, and what follows its
indentation is not a comment. -/
def Visible (l : Line) : Prop :=
  isBlank l.text = false ∧
    ¬∃ blanks rest, l.text = blanks ++ '/' :: '/' :: rest ∧ ∀ c ∈ blanks, Indent.isPart c = true

theorem blanks_append_body (l : Line) : l.blanks ++ l.body = l.text :=
  List.takeWhile_append_dropWhile

theorem isPart_of_mem_blanks {l : Line} {c : Char} (h : c ∈ l.blanks) : Indent.isPart c = true :=
  List.mem_takeWhile_imp h

end Text.Line

theorem Indent.isWhiteSpace_of_isPart {c : Char} (h : Indent.isPart c = true) :
    Text.isWhiteSpace c = true := by
  simp only [Indent.isPart, Bool.or_eq_true, decide_eq_true_eq] at h
  rcases h with (rfl | rfl) | rfl <;> decide

namespace Text.Line

theorem isBlank_text (l : Line) : isBlank l.text = isBlank l.body := by
  have hblanks : l.blanks.all isWhiteSpace = true :=
    List.all_eq_true.2 fun _ hc => Indent.isWhiteSpace_of_isPart (isPart_of_mem_blanks hc)
  rw [← l.blanks_append_body, isBlank, List.all_append, hblanks, Bool.true_and]
  rfl

/-- A comment right after the indentation. -/
theorem isPrefixOf_body (l : Line) :
    ['/', '/'].isPrefixOf l.body = true ↔
      ∃ blanks rest, l.text = blanks ++ '/' :: '/' :: rest ∧ ∀ c ∈ blanks, Indent.isPart c = true := by
  rw [List.isPrefixOf_iff_prefix]
  constructor
  · rintro ⟨rest, hrest⟩
    refine ⟨l.blanks, rest, ?_, fun c hc => isPart_of_mem_blanks hc⟩
    rw [← l.blanks_append_body, ← hrest]
    rfl
  · rintro ⟨blanks, rest, htext, hblanks⟩
    refine ⟨rest, ?_⟩
    rw [body, htext, List.dropWhile_append_of_pos hblanks]
    rfl

theorem visible_iff {l : Line} : l.Visible ↔ Layout.isInvisible l.body = false := by
  rw [Visible, ← isPrefixOf_body, isBlank_text, Layout.isInvisible, Bool.or_eq_false_iff,
    Bool.not_eq_true]

instance (l : Line) : Decidable l.Visible := decidable_of_iff _ visible_iff.symm

end Text.Line

namespace Layout

open Text (Line)

/-! ### The tokens of a line -/

/-- The token that stands for the indentation of a line, if the line opens a level. -/
def mark (number offset : Nat) (l : Line) : Token :=
  { kind := .indent, lexeme := String.ofList l.blanks, line := number,
    span := ⟨offset, offset + Text.size l.blanks⟩ }

/-- The token that ends a line. -/
def ending (number offset : Nat) (l : Line) : Token :=
  { kind := .newline, lexeme := "\n", line := number,
    span := ⟨offset + Text.size l.text, offset + l.size⟩ }

/-- The tokens and faults of what follows the indentation of a line. -/
def scanBody (number offset : Nat) (l : Line) : Scan :=
  scanPieces number (offset + Text.size l.blanks) (Piece.cut l.body)

theorem scanPieces_cons (number offset : Nat) (p : Piece) (pieces : List Piece) :
    scanPieces number offset (p :: pieces) =
      scanPieces number offset [p] ++ scanPieces number (offset + Text.size p.chars) pieces := by
  rcases hcls : p.cls with _ | _ | kind | _ | _ <;> simp only [scanPieces, hcls] <;> rfl

theorem scanLine_of_invisible {l : Line} (h : ¬l.Visible) (levels : List Indent)
    (number offset : Nat) : scanLine levels number offset l = (levels, ⟨[], []⟩) := by
  rw [Line.visible_iff, Bool.not_eq_false] at h
  exact if_pos h

theorem scanLine_of_visible {l : Line} (h : l.Visible) (levels : List Indent)
    (number offset : Nat) :
    scanLine levels number offset l =
      ((shift levels l.indent (mark number offset l)).1,
        (shift levels l.indent (mark number offset l)).2 ++ scanBody number offset l ++
          ⟨[ending number offset l], []⟩) := by
  rw [Line.visible_iff, ← Bool.not_eq_true] at h
  exact if_neg h

theorem not_isStructural_scanBody (number offset : Nat) (l : Line) :
    ∀ t ∈ (scanBody number offset l).tokens, t.kind.isStructural = false :=
  not_isStructural_scanPieces (Piece.not_isStructural_of_mem_cut _) _ _

/-! ### The lines of a text -/

theorem linesSize_eq (ls : List Line) : linesSize ls = Text.size (ls.flatMap Line.chars) := by
  induction ls with
  | nil => rfl
  | cons l ls ih => rw [linesSize, List.flatMap_cons, Text.size_append, l.size_chars, ih]

theorem linesSize_lines (cs : List Char) : linesSize (Text.lines cs) = Text.size cs := by
  rw [linesSize_eq, Text.flatMap_chars_lines]

/-- Whether a line feed ends the last of some lines; `ended` is the answer for no lines. -/
def lastEnded (ended : Bool) (ls : List Line) : Bool := (ls.getLast?.map Line.ended).getD ended

/-- Scanning goes through some lines, and then through the rest with the levels that they leave. -/
theorem scanFrom_lines (levels : List Indent) (number offset : Nat) (ended : Bool)
    (as bs : List Line) :
    scanFrom levels number offset ended (as ++ bs) =
      (scanLines levels number offset as).2 ++
        scanFrom (scanLines levels number offset as).1 (number + as.length)
          (offset + linesSize as) (lastEnded ended as) bs := by
  induction as generalizing levels number offset ended with
  | nil => rfl
  | cons l as ih =>
    have hlast : lastEnded ended (l :: as) = lastEnded l.ended as := by
      cases as with
      | nil => rfl
      | cons m as => simp [lastEnded, List.getLast?_cons]
    rw [List.cons_append, scanFrom, scanLines_cons]
    dsimp only
    rw [ih, Scan.append_assoc, linesSize, List.length_cons, hlast, Nat.add_assoc, Nat.add_assoc,
      Nat.add_comm 1]

/-- The same for lines that all have their endings. -/
theorem scanFrom_append (levels : List Indent) (number offset : Nat) {as : List Line}
    (has : ∀ l ∈ as, l.ended = true) (bs : List Line) :
    scanFrom levels number offset true (as ++ bs) =
      (scanLines levels number offset as).2 ++
        scanFrom (scanLines levels number offset as).1 (number + as.length)
          (offset + linesSize as) true bs := by
  have hlast : lastEnded true as = true := by
    unfold lastEnded
    cases h : as.getLast? with
    | none => rfl
    | some l => exact has l (List.mem_of_getLast? h)
  rw [scanFrom_lines, hlast]

theorem exists_tokens_close (levels : List Indent) (number offset : Nat) (ended : Bool) :
    ∃ closing last : Token, closing.kind = .dedent ∧ last.kind = .endOfFile ∧
      (close levels number offset ended).tokens = List.replicate levels.length closing ++ [last] :=
  ⟨_, _, rfl, rfl, rfl⟩

/-- A text is scanned line by line, and then closed. -/
theorem scan_eq_close (cs : List Char) :
    scan cs = (scanLines [] 0 0 (Text.lines cs)).2 ++
      close (scanLines [] 0 0 (Text.lines cs)).1 (Text.lines cs).length
        (linesSize (Text.lines cs)) (lastEnded true (Text.lines cs)) := by
  have h := scanFrom_lines [] 0 0 true (Text.lines cs) []
  rw [List.append_nil, Nat.zero_add, Nat.zero_add] at h
  exact h

end Layout

end Offside
