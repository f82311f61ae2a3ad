import Offside.Proofs.Concatenation
import Offside.Proofs.Coverage

/-!
# Lines that layout does not see

A blank line and a line with only a comment have no tokens, and the levels open before one are the
levels open after it, however it is indented. Put in front of other lines it moves what they hold,
and that is all it does.

* `Scan.Starts`: where the tokens and faults of a stretch of text start;
* `Layout.starts_scanLines`, `Layout.starts_scanFrom`: those of lines start on the lines;
* `Transport.insertion`: the transport that makes room at a position;
* `Layout.scan_insert`: the tokens and faults of a text with such a line inserted.
-/

namespace Offside

/-! ### Lines -/

namespace Text

theorem lines_append_of_start {a : List Char} (ha : a = [] ∨ endsWithNewline a = true)
    (b : List Char) : lines (a ++ b) = lines a ++ lines b := by
  rcases ha with rfl | ha
  · rfl
  · exact lines_append ha b

theorem ended_of_start {a : List Char} (ha : a = [] ∨ endsWithNewline a = true) :
    ∀ l ∈ lines a, l.ended = true := by
  rcases ha with rfl | ha
  · exact List.forall_mem_nil _
  · exact ended_of_mem_lines ha

theorem lines_ne_nil {cs : List Char} (h : cs ≠ []) : lines cs ≠ [] := by
  intro hlines
  have hsize := Layout.linesSize_lines cs
  rw [hlines] at hsize
  exact absurd hsize (Nat.ne_of_lt (size_pos h))

end Text

/-! ### Where tokens and faults start -/

/-- All tokens and faults start at bytes with `P`. -/
structure Scan.Starts (P : Nat → Prop) (s : Scan) : Prop where
  tokens : ∀ t ∈ s.tokens, P t.span.start
  errors : ∀ d ∈ s.errors, P d.span.start

namespace Scan.Starts

variable {P Q : Nat → Prop} {s s' : Scan}

theorem nothing : Starts P ⟨[], []⟩ := ⟨List.forall_mem_nil _, List.forall_mem_nil _⟩

theorem append (h : s.Starts P) (h' : s'.Starts P) : (s ++ s').Starts P :=
  ⟨List.forall_mem_append.2 ⟨h.tokens, h'.tokens⟩, List.forall_mem_append.2 ⟨h.errors, h'.errors⟩⟩

theorem imp (h : s.Starts P) (hPQ : ∀ n, P n → Q n) : s.Starts Q :=
  ⟨fun t ht => hPQ _ (h.tokens t ht), fun d hd => hPQ _ (h.errors d hd)⟩

end Scan.Starts

namespace Layout

open Text (Line)

theorem starts_shift (levels : List Indent) (number offset : Nat) (l : Line) :
    (shift levels l.indent (mark number offset l)).2.Starts
      fun n => offset ≤ n ∧ n ≤ offset + Text.size l.blanks := by
  constructor
  · intro t ht
    rcases mem_shift_tokens ht with rfl | ⟨-, hspan⟩
    · exact ⟨Nat.le_refl _, Nat.le_add_right _ _⟩
    · rw [hspan]
      exact ⟨Nat.le_add_right _ _, Nat.le_refl _⟩
  · intro d hd
    obtain ⟨e, -, rfl⟩ := eq_fault_of_mem_shift hd
    exact ⟨Nat.le_refl _, Nat.le_add_right _ _⟩

theorem starts_scanPieces (number offset : Nat) (pieces : List Piece) :
    (scanPieces number offset pieces).Starts
      fun n => offset ≤ n ∧ n ≤ offset + Text.size (pieces.flatMap (·.chars)) := by
  induction pieces generalizing offset with
  | nil => exact .nothing
  | cons p pieces ih =>
    rw [scanPieces_cons, List.flatMap_cons, Text.size_append]
    refine .append ?_ ((ih _).imp fun n hn => by omega)
    have hstart : offset ≤ offset ∧ offset ≤ offset +
        (Text.size p.chars + Text.size (pieces.flatMap (·.chars))) :=
      ⟨Nat.le_refl _, Nat.le_add_right _ _⟩
    rcases hcls : p.cls with _ | _ | kind | _ | _ <;> simp only [scanPieces, hcls]
    · exact .nothing
    · exact .nothing
    · exact ⟨List.forall_mem_singleton.2 hstart, List.forall_mem_nil _⟩
    · exact ⟨List.forall_mem_nil _, List.forall_mem_singleton.2 hstart⟩
    · exact ⟨List.forall_mem_nil _, List.forall_mem_singleton.2 hstart⟩

/-- What is found on a line starts on the line, before its line feed or at it. -/
theorem starts_scanLine (levels : List Indent) (number offset : Nat) (l : Line) :
    (scanLine levels number offset l).2.Starts
      fun n => offset ≤ n ∧ n ≤ offset + Text.size l.text := by
  by_cases hl : l.Visible
  · have hsize : Text.size l.text = Text.size l.blanks + Text.size l.body := by
      rw [← Text.size_append, l.blanks_append_body]
    have hbody := starts_scanPieces number (offset + Text.size l.blanks) (Piece.cut l.body)
    rw [Piece.flatMap_chars_cut] at hbody
    rw [scanLine_of_visible hl]
    refine .append (.append ?_ ?_) ?_
    · exact (starts_shift levels number offset l).imp fun n hn => by omega
    · exact hbody.imp fun n hn => by omega
    · exact ⟨List.forall_mem_singleton.2 ⟨Nat.le_add_right _ _, Nat.le_refl _⟩,
        List.forall_mem_nil _⟩
  · rw [scanLine_of_invisible hl]
    exact .nothing

/-- What is found on lines that have their endings starts before they end. -/
theorem starts_scanLines (levels : List Indent) (number offset : Nat) {ls : List Line}
    (hended : ∀ l ∈ ls, l.ended = true) :
    (scanLines levels number offset ls).2.Starts fun n => n < offset + linesSize ls := by
  induction ls generalizing levels number offset with
  | nil => exact .nothing
  | cons l ls ih =>
    obtain ⟨hl, hls⟩ := List.forall_mem_cons.1 hended
    have hsize : l.size = Text.size l.text + 1 := by simp [Line.size, hl]
    rw [scanLines_cons, linesSize]
    refine .append ?_ ((ih _ _ _ hls).imp fun n hn => by omega)
    exact (starts_scanLine levels (number + 1) offset l).imp fun n hn => by omega

/-- What is found from a line on starts at that line or after it. -/
theorem starts_scanFrom (levels : List Indent) (number offset : Nat) (ended : Bool)
    (ls : List Line) : (scanFrom levels number offset ended ls).Starts (offset ≤ ·) := by
  induction ls generalizing levels number offset ended with
  | nil =>
    rw [scanFrom, close]
    constructor
    · intro t ht
      rcases List.mem_append.1 ht with ht | ht
      · rw [(List.mem_replicate.1 ht).2]
        exact Nat.le_refl _
      · rw [List.mem_singleton.1 ht]
        exact Nat.le_refl _
    · dsimp only
      split
      · exact List.forall_mem_nil _
      · exact List.forall_mem_singleton.2 (Nat.le_refl _)
  | cons l ls ih =>
    rw [scanFrom]
    refine .append ?_ ((ih _ _ _ _).imp fun n hn => by omega)
    exact (starts_scanLine levels (number + 1) offset l).imp fun n hn => hn.1

/-! ### The end of a text, moved -/

/-- The lines from some line on and the end of the text have the same tokens elsewhere, moved. The end
of a text is never before line one, so there has to be a line. -/
theorem scanFrom_move (σ : Shift) (levels : List Indent) {number : Nat} (offset : Nat)
    (ended : Bool) {ls : List Line} (h : 0 < number ∨ ls ≠ []) :
    scanFrom levels (number + σ.lines) (offset + σ.bytes) ended ls =
      (scanFrom levels number offset ended ls).move σ := by
  induction ls generalizing levels number offset ended with
  | nil =>
    have hnumber : 0 < number := h.resolve_right fun hne => hne rfl
    have hmax : max (number + σ.lines) 1 = max number 1 + σ.lines := by omega
    rw [scanFrom, scanFrom, close, close, hmax, Scan.move]
    dsimp only
    rw [List.map_append, List.map_replicate, apply_ite (List.map _)]
    rfl
  | cons l ls ih =>
    rw [scanFrom, scanFrom]
    dsimp only
    rw [Nat.add_right_comm number, Nat.add_right_comm offset, scanLine_move,
      ih _ _ _ (.inl (Nat.succ_pos number)), Scan.move_append]

end Layout

/-! ### Room at a position -/

namespace Transport

/-- Whatever starts at a position or after it is moved. -/
def insertion (position : Nat) (σ : Shift) : Transport where
  token t := if position ≤ t.span.start then t.shift σ else t
  span s := if position ≤ s.start then s.shift σ else s
  diagnostic d := if position ≤ d.span.start then d.shift σ else d
  kind_token t := by split <;> rfl
  lexeme_token t := by split <;> rfl
  literal_token t := by split <;> rfl
  span_token t := by split <;> rfl
  diagnose_token t cause := by
    by_cases h : position ≤ t.span.start
    · rw [if_pos h, if_pos (show position ≤ (t.diagnose cause).span.start from h)]
      rfl
    · rw [if_neg h, if_neg (show ¬position ≤ (t.diagnose cause).span.start from h)]
  inFile_diagnostic d file := by
    by_cases h : position ≤ d.span.start
    · rw [if_pos h, if_pos (show position ≤ (d.inFile file).span.start from h)]
      rfl
    · rw [if_neg h, if_neg (show ¬position ≤ (d.inFile file).span.start from h)]

theorem span_insertion_injective (position : Nat) (σ : Shift) :
    Function.Injective (insertion position σ).span := by
  rintro ⟨start, stop⟩ ⟨start', stop'⟩ h
  simp only [insertion, Span.shift] at h
  split at h <;> split at h <;> simp only [Span.mk.injEq] at h ⊢ <;> omega

end Transport

namespace Scan.Starts

variable {s : Scan} {position : Nat} (σ : Shift)

/-- What starts before a position stays. -/
theorem transport_of_lt (h : s.Starts (· < position)) :
    s.transport (.insertion position σ) = s := by
  have htokens : s.tokens.map (Transport.insertion position σ).token = s.tokens.map id :=
    List.map_congr_left fun t ht => if_neg (Nat.not_le_of_lt (h.tokens t ht))
  have herrors : s.errors.map (Transport.insertion position σ).diagnostic = s.errors.map id :=
    List.map_congr_left fun d hd => if_neg (Nat.not_le_of_lt (h.errors d hd))
  rw [Scan.transport, htokens, herrors, List.map_id, List.map_id]

/-- What starts from a position on is moved. -/
theorem transport_of_le (h : s.Starts (position ≤ ·)) :
    s.transport (.insertion position σ) = s.move σ := by
  have htokens : s.tokens.map (Transport.insertion position σ).token =
      s.tokens.map (Token.shift σ) :=
    List.map_congr_left fun t ht => if_pos (h.tokens t ht)
  have herrors : s.errors.map (Transport.insertion position σ).diagnostic =
      s.errors.map (·.shift σ) :=
    List.map_congr_left fun d hd => if_pos (h.errors d hd)
  rw [Scan.transport, htokens, herrors, Scan.move]

end Scan.Starts

namespace Layout

/-- How far a line moves what follows it. -/
def lineExtent (line : List Char) : Shift := ⟨1, Text.size line + 1⟩

/-- A line that layout does not see, inserted at the start of a line or at the end of the text, moves
what starts at that position or after it and changes nothing else. -/
theorem scan_insert {a b line : List Char} (hne : a ++ b ≠ [])
    (ha : a = [] ∨ Text.endsWithNewline a = true) (hline : '\n' ∉ line)
    (hinvisible : ¬(⟨line, true⟩ : Text.Line).Visible) :
    scan (a ++ (line ++ '\n' :: b)) =
      (scan (a ++ b)).transport (.insertion (Text.size a) (lineExtent line)) := by
  have hended := Text.ended_of_start ha
  have hlines : Text.lines (line ++ '\n' :: b) = ⟨line, true⟩ :: Text.lines b :=
    Text.linesFrom_append_feed hline [] b
  have hsome : 0 < (Text.lines a).length ∨ Text.lines b ≠ [] := by
    by_cases hempty : a = []
    · rw [hempty] at hne
      exact .inr (Text.lines_ne_nil hne)
    · exact .inl (List.length_pos_iff.2 (Text.lines_ne_nil hempty))
  have hfront := starts_scanLines [] 0 0 hended
  rw [Nat.zero_add, linesSize_lines] at hfront
  rw [scan, scan, Text.lines_append_of_start ha, Text.lines_append_of_start ha, hlines,
    scanFrom_append [] 0 0 hended, scanFrom_append [] 0 0 hended, linesSize_lines, Nat.zero_add,
    Nat.zero_add, Scan.transport_append, hfront.transport_of_lt,
    (starts_scanFrom _ _ _ _ _).transport_of_le, ← scanFrom_move (lineExtent line) _ _ _ hsome]
  rw [scanFrom, scanLine_of_invisible hinvisible]
  rfl

end Layout

end Offside
