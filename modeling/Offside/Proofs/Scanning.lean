import Mathlib.Data.List.Basic
import Offside.Layout

/-!
# Where scanned tokens stand

Every token that scanning makes, and every fault it finds, stands at a place of the text: its span
covers characters of the text, its line is the line they are on, and a lexeme is the text it covers.
Spans follow one another without overlap, and only structural tokens can be empty.

* `Text.Regular`: the shape of the lines of a text;
* `Located`: line, place and span that agree with a text;
* `Layout.Faithful`: tokens and faults that agree with a text;
* `Layout.faithful_scan`: scanning finds nothing else.
-/

namespace Offside

namespace Text

/-! ### Lines -/

/-- The characters of a line, its ending included. -/
def Line.chars (l : Line) : List Char := l.text ++ if l.ended then ['\n'] else []

theorem Line.size_chars (l : Line) : Text.size l.chars = l.size := by
  unfold Line.chars Line.size
  cases l.ended with
  | false => simp
  | true => simp [show '\n'.utf8Size = 1 from rfl]

/-- Lines as a text has them: none holds a line feed, and only the last can lack its ending, in which
case it holds something. -/
def Regular : List Line → Prop
  | [] => True
  | l :: ls => '\n' ∉ l.text ∧ (l.ended = false → ls = [] ∧ l.text ≠ []) ∧ Regular ls

theorem linesFrom_spec (seen cs : List Char) (h : '\n' ∉ seen) :
    (linesFrom seen cs).flatMap Line.chars = seen.reverse ++ cs ∧ Regular (linesFrom seen cs) := by
  induction cs generalizing seen with
  | nil =>
    cases seen with
    | nil => simp [linesFrom, Regular]
    | cons c seen =>
      have hmem : '\n' ∉ (c :: seen).reverse := by rwa [List.mem_reverse]
      exact ⟨by simp [linesFrom, Line.chars], hmem, by simp, trivial⟩
  | cons c cs ih =>
    by_cases hc : c = '\n'
    · subst hc
      obtain ⟨hchars, hreg⟩ := ih [] (by simp)
      have hmem : '\n' ∉ seen.reverse := by rwa [List.mem_reverse]
      simp only [linesFrom, if_pos, List.flatMap_cons, hchars]
      exact ⟨by simp [Line.chars], hmem, by simp, hreg⟩
    · obtain ⟨hchars, hreg⟩ := ih (c :: seen) (by simpa using ⟨Ne.symm hc, h⟩)
      simp only [linesFrom, if_neg hc, hchars]
      exact ⟨by simp, hreg⟩

/-- The lines of a text in order are the text. -/
theorem flatMap_chars_lines (cs : List Char) : (lines cs).flatMap Line.chars = cs :=
  (linesFrom_spec [] cs (by simp)).1

theorem regular_lines (cs : List Char) : Regular (lines cs) := (linesFrom_spec [] cs (by simp)).2

/-! ### Sizes and endings -/

theorem size_pos {cs : List Char} (h : cs ≠ []) : 0 < size cs := by
  cases cs with
  | nil => exact absurd rfl h
  | cons c cs =>
    rw [size_cons]
    have := Char.utf8Size_pos c
    omega

theorem endsWithNewline_append {cs ds : List Char} (h : ds ≠ []) :
    endsWithNewline (cs ++ ds) = endsWithNewline ds := by
  unfold endsWithNewline
  rw [List.getLast?_append_of_ne_nil cs h]

theorem not_endsWithNewline {cs : List Char} (h : '\n' ∉ cs) : endsWithNewline cs = false := by
  unfold endsWithNewline
  by_contra hne
  simp only [Bool.not_eq_false, beq_iff_eq] at hne
  exact h (List.mem_of_getLast? hne)

end Text

/-! ### Places in a text -/

/-- A line, a place and a span agree with a text. The span covers characters of the text, which are
the lexeme if the place is one, and which hold no line feed, except that the end of a line may be
the one line feed there. The line is one more than the number of line feeds before the span; but the
end of a text that ends with a line feed belongs to the line before it. -/
def Located (cs : List Char) (line : Nat) (place : Place) (span : Span) : Prop :=
  ∃ before covered after, cs = before ++ covered ++ after ∧
    span = ⟨Text.size before, Text.size (before ++ covered)⟩ ∧
    (∀ lexeme, place = .lexeme lexeme → String.ofList covered = lexeme) ∧
    ('\n' ∉ covered ∨ place = .endOfLine ∧ covered = ['\n']) ∧
    line + (if span.start = Text.size cs ∧ Text.endsWithNewline cs then 1 else 0) =
      1 + before.count '\n'

namespace Layout

open Text

/-- A stretch of a line that is not empty, seen from the text around it: `before` are the lines
before it, and `after` is what follows it. -/
theorem located_on_line {before after a b c : List Char} {ended : Bool} {place : Place}
    (hne : a ++ b ++ c ≠ []) (hnl : '\n' ∉ a ++ b ++ c)
    (hended : ended = false → after = [])
    (hplace : ∀ lexeme, place = .lexeme lexeme → String.ofList b = lexeme) :
    Located (before ++ (⟨a ++ b ++ c, ended⟩ : Line).chars ++ after) (before.count '\n' + 1) place
      ⟨size before + size a, size before + size a + size b⟩ := by
  refine ⟨before ++ a, b, c ++ (if ended then ['\n'] else []) ++ after, ?_, ?_, hplace, ?_, ?_⟩
  · simp [Line.chars]
  · simp [Nat.add_assoc]
  · left
    intro hmem
    exact hnl (by simp [hmem])
  · have hcount : (before ++ a).count '\n' = before.count '\n' := by
      have ha : '\n' ∉ a := fun hmem => hnl (by simp [hmem])
      simp [List.count_eq_zero.2 ha]
    -- only an unended last line can end at the end of the text, and it ends with no line feed
    have hend : ¬ (size before + size a = size (before ++ (⟨a ++ b ++ c, ended⟩ : Line).chars ++ after) ∧
        endsWithNewline (before ++ (⟨a ++ b ++ c, ended⟩ : Line).chars ++ after) = true) := by
      rintro ⟨hsize, hnewline⟩
      cases ended with
      | true =>
        simp [Line.chars] at hsize
        have := Char.utf8Size_pos '\n'
        omega
      | false =>
        rw [hended rfl] at hnewline
        simp only [Line.chars, Bool.false_eq_true, if_false, List.append_nil] at hnewline
        rw [endsWithNewline_append hne, not_endsWithNewline hnl] at hnewline
        exact Bool.false_ne_true hnewline
    rw [if_neg hend, hcount]
    omega

/-- The end of a line that is not empty, seen from the text around it. -/
theorem located_ending {before after text : List Char} {ended : Bool} (hne : text ≠ [])
    (hnl : '\n' ∉ text) (hended : ended = false → after = []) :
    Located (before ++ (⟨text, ended⟩ : Line).chars ++ after) (before.count '\n' + 1) .endOfLine
      ⟨size before + size text, size before + (⟨text, ended⟩ : Line).size⟩ := by
  cases ended with
  | false =>
    have h : Located (before ++ (⟨text ++ [] ++ [], false⟩ : Line).chars ++ after)
        (before.count '\n' + 1) .endOfLine
        ⟨size before + size text, size before + size text + size []⟩ :=
      located_on_line (by simpa using hne) (by simpa using hnl) hended (by simp)
    simpa [Line.size] using h
  | true =>
    refine ⟨before ++ text, ['\n'], after, by simp [Line.chars], ?_, by simp, .inr ⟨rfl, rfl⟩, ?_⟩
    · simp [Line.size, show '\n'.utf8Size = 1 from rfl]
    · have hend : size before + size text ≠
          size (before ++ (⟨text, true⟩ : Line).chars ++ after) := by
        have := Char.utf8Size_pos '\n'
        simp only [Line.chars, if_pos, size_append, size_cons, size_nil]
        omega
      rw [if_neg fun h => hend h.1]
      simp [List.count_eq_zero.2 hnl, Nat.add_comm]

/-! ### Tokens in order -/

/-- Tokens that lie one after the other between two offsets. -/
def Ordered (low : Nat) : List Token → Nat → Prop
  | [], high => low ≤ high
  | t :: ts, high =>
    low ≤ t.span.start ∧ t.span.start ≤ t.span.stop ∧ Ordered t.span.stop ts high

theorem Ordered.append {low middle high : Nat} {ts us : List Token} (h : Ordered low ts middle)
    (h' : Ordered middle us high) : Ordered low (ts ++ us) high := by
  induction ts generalizing low with
  | nil =>
    cases us with
    | nil => exact Nat.le_trans h h'
    | cons u us => exact ⟨Nat.le_trans h h'.1, h'.2⟩
  | cons t ts ih => exact ⟨h.1, h.2.1, ih h.2.2⟩

theorem Ordered.low_le_start {low high : Nat} {ts : List Token} (h : Ordered low ts high)
    {t : Token} (ht : t ∈ ts) : low ≤ t.span.start := by
  induction ts generalizing low with
  | nil => exact absurd ht List.not_mem_nil
  | cons u ts ih =>
    rcases List.mem_cons.1 ht with rfl | ht
    · exact h.1
    · exact Nat.le_trans (Nat.le_trans h.1 h.2.1) (ih h.2.2 ht)

theorem Ordered.start_le_stop {low high : Nat} {ts : List Token} (h : Ordered low ts high)
    {t : Token} (ht : t ∈ ts) : t.span.start ≤ t.span.stop := by
  induction ts generalizing low with
  | nil => cases ht
  | cons u ts ih =>
    rcases List.mem_cons.1 ht with rfl | ht
    · exact h.2.1
    · exact ih h.2.2 ht

theorem Ordered.pairwise {low high : Nat} {ts : List Token} (h : Ordered low ts high) :
    ts.Pairwise fun a b => a.span.stop ≤ b.span.start := by
  induction ts generalizing low with
  | nil => exact List.Pairwise.nil
  | cons t ts ih => exact List.Pairwise.cons (fun u hu => h.2.2.low_le_start hu) (ih h.2.2)

/-- An empty token several times. -/
theorem ordered_replicate {t : Token} {offset : Nat} (h : t.span = Span.empty offset) (n : Nat) :
    Ordered offset (List.replicate n t) offset := by
  induction n with
  | zero => exact Nat.le_refl offset
  | succ n ih => simpa [List.replicate_succ, Ordered, h, Span.empty] using ih

/-- What is found in a stretch of a text, from one offset to another, agrees with the text. -/
structure Faithful (cs : List Char) (low : Nat) (scan : Scan) (high : Nat) : Prop where
  located : ∀ t ∈ scan.tokens, Located cs t.line t.place t.span
  errors : ∀ d ∈ scan.errors,
    Located cs d.line d.place d.span ∧ d.file = none ∧ ∃ e, d.cause = .lexical e
  ordered : Ordered low scan.tokens high
  nonempty : ∀ t ∈ scan.tokens, t.kind.isStructural ∨ t.span.start < t.span.stop

theorem Faithful.append {cs : List Char} {low middle high : Nat} {a b : Scan}
    (ha : Faithful cs low a middle) (hb : Faithful cs middle b high) :
    Faithful cs low (a ++ b) high where
  located t ht := (List.mem_append.1 ht).elim (ha.located t) (hb.located t)
  errors d hd := (List.mem_append.1 hd).elim (ha.errors d) (hb.errors d)
  ordered := ha.ordered.append hb.ordered
  nonempty t ht := (List.mem_append.1 ht).elim (ha.nonempty t) (hb.nonempty t)

/-- A stretch in which nothing is found. -/
theorem faithful_nothing (cs : List Char) {low high : Nat} (h : low ≤ high) :
    Faithful cs low ⟨[], []⟩ high where
  located := by simp
  errors := by simp
  ordered := h
  nonempty := by simp

/-! ### One line -/

/-- A line that starts at byte `offset` and has number `number` in a text: whatever stretch of it is
named is located there. -/
def OnLine (cs : List Char) (number offset : Nat) (text : List Char) : Prop :=
  ∀ a b c place, text = a ++ b ++ c →
    (∀ lexeme, place = .lexeme lexeme → String.ofList b = lexeme) →
    Located cs number place ⟨offset + size a, offset + size a + size b⟩

theorem onLine_of_regular {before after text : List Char} {ended : Bool} (hne : text ≠ [])
    (hnl : '\n' ∉ text) (hended : ended = false → after = []) :
    OnLine (before ++ (⟨text, ended⟩ : Line).chars ++ after) (before.count '\n' + 1) (size before)
      text := by
  rintro a b c place rfl hplace
  exact located_on_line hne hnl hended hplace

variable {cs text : List Char} {number offset : Nat}

theorem faithful_scanPieces (hline : OnLine cs number offset text) (pieces : List Piece)
    (hpieces : ∀ p ∈ pieces, p.chars ≠ []) (a : List Char)
    (htext : text = a ++ pieces.flatMap Piece.chars) :
    Faithful cs (offset + size a) (scanPieces number (offset + size a) pieces)
      (offset + size text) := by
  induction pieces generalizing a with
  | nil =>
    refine faithful_nothing cs ?_
    rw [htext]
    simp
  | cons p pieces ih =>
    have hsplit : text = a ++ p.chars ++ pieces.flatMap Piece.chars := by simpa using htext
    have hrest := ih (fun q hq => hpieces q (by simp [hq])) (a ++ p.chars) hsplit
    rw [size_append, ← Nat.add_assoc] at hrest
    have hpos : 0 < size p.chars := size_pos (hpieces p (by simp))
    have hlocated : ∀ place : Place,
        (∀ lexeme, place = .lexeme lexeme → String.ofList p.chars = lexeme) →
        Located cs number place ⟨offset + size a, offset + size a + size p.chars⟩ :=
      fun place => hline a p.chars _ place hsplit
    have hfaulty := hlocated (.lexeme (String.ofList p.chars)) fun _ h => Place.lexeme.inj h
    have hskip : Faithful cs (offset + size a)
        (scanPieces number (offset + size a + size p.chars) pieces) (offset + size text) :=
      (faithful_nothing cs (by omega)).append hrest
    unfold scanPieces
    rcases hcls : p.cls with _ | _ | kind | _ | _
    · exact hskip
    · exact hskip
    · refine ⟨?_, hskip.errors, ⟨Nat.le_refl _, by simp, hrest.ordered⟩, ?_⟩
      · intro t ht
        rcases List.mem_cons.1 ht with rfl | ht
        · refine hlocated _ fun lexeme h => ?_
          unfold Token.place at h
          split at h <;> first | exact Place.lexeme.inj h | cases h
        · exact hskip.located t ht
      · intro t ht
        rcases List.mem_cons.1 ht with rfl | ht
        · exact .inr (by simpa using hpos)
        · exact hskip.nonempty t ht
    · refine ⟨hskip.located, ?_, hskip.ordered, hskip.nonempty⟩
      intro d hd
      rcases List.mem_cons.1 hd with rfl | hd
      · exact ⟨hfaulty, rfl, _, rfl⟩
      · exact hskip.errors d hd
    · refine ⟨hskip.located, ?_, hskip.ordered, hskip.nonempty⟩
      intro d hd
      rcases List.mem_cons.1 hd with rfl | hd
      · exact ⟨hfaulty, rfl, _, rfl⟩
      · exact hskip.errors d hd

theorem chars_ne_nil_of_mem_cut (body : List Char) : ∀ p ∈ Piece.cut body, p.chars ≠ [] := by
  suffices h : ∀ skip, ∀ p ∈ Piece.cutAfter skip body, p.chars ≠ [] from h 0
  intro skip
  induction body generalizing skip with
  | nil => simp [Piece.cutAfter]
  | cons c body ih =>
    cases skip with
    | succ skip => exact ih skip
    | zero =>
      intro p hp
      rcases List.mem_cons.1 hp with rfl | hp
      · simp
      · exact ih _ p hp

/-- The indentation of a line brings about tokens at the indentation, and faults there. -/
theorem faithful_shift (levels : List Indent) (current : Indent) (mark : Token) {low : Nat}
    (hkind : mark.kind = .indent) (hlow : low = mark.span.start)
    (hspan : mark.span.start ≤ mark.span.stop)
    (hmark : Located cs mark.line .indentation mark.span)
    (hclosing : Located cs mark.line .endOfBlock (Span.empty mark.span.stop)) :
    Faithful cs low (shift levels current mark).2 mark.span.stop := by
  have hfault : ∀ e, Located cs (fault mark e).line (fault mark e).place (fault mark e).span ∧
      (fault mark e).file = none ∧ ∃ e', (fault mark e).cause = .lexical e' := by
    intro e
    refine ⟨?_, rfl, e, rfl⟩
    simpa [fault, Token.diagnose, Token.place, hkind] using hmark
  subst hlow
  unfold shift
  split
  · refine ⟨by simp, ?_, hspan, by simp⟩
    intro d hd
    split at hd
    · rw [List.mem_singleton.1 hd]
      exact hfault _
    · exact absurd hd List.not_mem_nil
  · split
    · refine ⟨?_, ?_, ⟨Nat.le_refl _, hspan, Nat.le_refl _⟩, ?_⟩
      · intro t ht
        rw [List.mem_singleton.1 ht, Token.place, hkind]
        exact hmark
      · intro d hd
        rcases List.mem_append.1 hd with hd | hd <;> split at hd
        · rw [List.mem_singleton.1 hd]
          exact hfault _
        · exact absurd hd List.not_mem_nil
        · rw [List.mem_singleton.1 hd]
          exact hfault _
        · exact absurd hd List.not_mem_nil
      · intro t ht
        rw [List.mem_singleton.1 ht, hkind]
        exact .inl rfl
    · refine ⟨?_, ?_, ?_, ?_⟩
      · intro t ht
        rw [(List.mem_replicate.1 ht).2]
        exact hclosing
      · intro d hd
        simp only [shrink] at hd
        split at hd
        · rw [List.mem_singleton.1 hd]
          exact hfault _
        · split at hd
          · rw [List.mem_singleton.1 hd]
            exact hfault _
          · exact absurd hd List.not_mem_nil
      · have hnothing : Ordered mark.span.start [] mark.span.stop := hspan
        exact hnothing.append (ordered_replicate rfl _)
      · intro t ht
        rw [(List.mem_replicate.1 ht).2]
        exact .inl rfl

/-- A visible line has its tokens between its ends. -/
theorem faithful_scanLine (levels : List Indent) (line : Line)
    (hline : line.text ≠ [] → OnLine cs number offset line.text)
    (hending : line.text ≠ [] →
      Located cs number .endOfLine ⟨offset + size line.text, offset + line.size⟩) :
    Faithful cs offset (scanLine levels number offset line).2 (offset + line.size) := by
  have hsize : size line.text ≤ line.size := Nat.le_add_right _ _
  unfold scanLine
  simp only []
  split
  · exact faithful_nothing cs (Nat.le_add_right _ _)
  · next hvisible =>
    have htext : line.text =
        line.text.takeWhile Indent.isPart ++ line.text.dropWhile Indent.isPart :=
      (List.takeWhile_append_dropWhile).symm
    have hne : line.text ≠ [] := by
      intro h
      rw [h] at hvisible
      exact hvisible rfl
    have hon := hline hne
    have hmark := hon [] _ _ .indentation htext (by simp)
    have hclosing := hon (line.text.takeWhile Indent.isPart) []
      (line.text.dropWhile Indent.isPart) .endOfBlock (by rwa [List.append_nil]) (by simp)
    have hopening := faithful_shift levels (Indent.ofChars (line.text.takeWhile Indent.isPart))
      { kind := .indent, lexeme := String.ofList (line.text.takeWhile Indent.isPart),
        line := number,
        span := ⟨offset, offset + size (line.text.takeWhile Indent.isPart)⟩ }
      rfl rfl (Nat.le_add_right _ _) (by simpa using hmark) (by simpa [Span.empty] using hclosing)
    have hpieces := faithful_scanPieces hon _ (chars_ne_nil_of_mem_cut _) _
      (by rw [Piece.flatMap_chars_cut]; exact htext)
    refine (hopening.append hpieces).append ⟨?_, by simp, ?_, ?_⟩
    · intro t ht
      rw [List.mem_singleton.1 ht]
      exact hending hne
    · exact ⟨Nat.le_refl _, by simpa using hsize, Nat.le_refl _⟩
    · intro t ht
      rw [List.mem_singleton.1 ht]
      exact .inl rfl

/-! ### Texts -/

/-- The lines before a position at the start of a line: each has its line feed. -/
def LinesBefore (before : List Char) (number : Nat) : Prop :=
  before.count '\n' = number ∧ (before = [] ∨ endsWithNewline before)

theorem LinesBefore.line {before : List Char} {number : Nat} (h : LinesBefore before number)
    {text : List Char} (htext : '\n' ∉ text) :
    LinesBefore (before ++ (⟨text, true⟩ : Line).chars) (number + 1) := by
  refine ⟨?_, .inr ?_⟩
  · simp [Line.chars, h.1, List.count_eq_zero.2 htext]
  · rw [Line.chars, if_pos rfl, ← List.append_assoc, endsWithNewline_append (by simp)]
    rfl

/-- The end of a text, with `number` lines before it. -/
theorem faithful_close (levels : List Indent) {number : Nat} (ended : Bool)
    (hline : max number 1 + (if endsWithNewline cs then 1 else 0) = 1 + cs.count '\n') :
    Faithful cs (size cs) (close levels number (size cs) ended) (size cs) := by
  have hlocated : ∀ place : Place, (∀ lexeme, place ≠ .lexeme lexeme) →
      Located cs (max number 1) place (Span.empty (size cs)) := by
    intro place hplace
    refine ⟨cs, [], [], by simp, by simp [Span.empty], ?_, by simp, ?_⟩
    · intro lexeme h
      exact absurd h (hplace lexeme)
    · simpa [Span.empty] using hline
  unfold close
  refine ⟨?_, ?_, ?_, ?_⟩
  · intro t ht
    rcases List.mem_append.1 ht with ht | ht
    · rw [(List.mem_replicate.1 ht).2]
      exact hlocated .endOfBlock (by simp)
    · rw [List.mem_singleton.1 ht]
      exact hlocated .endOfFile (by simp)
  · intro d hd
    split at hd
    · exact absurd hd List.not_mem_nil
    · rw [List.mem_singleton.1 hd]
      exact ⟨hlocated .endOfFile (by simp), rfl, _, rfl⟩
  · exact (ordered_replicate rfl _).append ⟨Nat.le_refl _, Nat.le_refl _, Nat.le_refl _⟩
  · intro t ht
    rcases List.mem_append.1 ht with ht | ht
    · rw [(List.mem_replicate.1 ht).2]
      exact .inl rfl
    · rw [List.mem_singleton.1 ht]
      exact .inl rfl

/-- What is found from a line on agrees with the text. The induction is on the lines ahead, with the
text before them as its invariant. -/
theorem faithful_scanFrom (levels : List Indent) {before : List Char} {number : Nat} (ended : Bool)
    (ls : List Line) (hbefore : LinesBefore before number) (hregular : Regular ls) :
    Faithful (before ++ ls.flatMap Line.chars) (size before)
      (scanFrom levels number (size before) ended ls) (size (before ++ ls.flatMap Line.chars)) := by
  induction ls generalizing levels before number ended with
  | nil =>
    simp only [List.flatMap_nil, List.append_nil, scanFrom]
    refine faithful_close levels ended ?_
    obtain ⟨hcount, hbefore | hbefore⟩ := hbefore
    · subst hbefore
      simp at hcount
      simp [← hcount, endsWithNewline]
    · have hpos : 0 < before.count '\n' := by
        apply List.count_pos_iff.2
        unfold endsWithNewline at hbefore
        exact List.mem_of_getLast? (by simpa using hbefore)
      rw [if_pos hbefore]
      omega
  | cons l ls ih =>
    obtain ⟨hnl, hlast, hregular⟩ := hregular
    have hcs : before ++ (l :: ls).flatMap Line.chars =
        before ++ l.chars ++ ls.flatMap Line.chars := by simp
    rw [hcs]
    have hunended : l.ended = false → ls.flatMap Line.chars = [] := by
      intro h
      rw [(hlast h).1]
      rfl
    have hfirst : Faithful (before ++ l.chars ++ ls.flatMap Line.chars) (size before)
        (scanLine levels (number + 1) (size before) l).2 (size before + l.size) := by
      refine faithful_scanLine levels l (fun hne => ?_) fun hne => ?_
      · rw [← hbefore.1]
        exact onLine_of_regular hne hnl hunended
      · rw [← hbefore.1]
        exact located_ending hne hnl hunended
    have hsize : size before + l.size = size (before ++ l.chars) := by
      rw [size_append, Line.size_chars]
    rw [hsize] at hfirst
    rw [scanFrom, hsize]
    refine hfirst.append ?_
    cases hended : l.ended with
    | true =>
      have hl : l = ⟨l.text, true⟩ := by rw [← hended]
      exact ih _ _ (hl ▸ hbefore.line hnl) hregular
    | false =>
      obtain ⟨rfl, hne⟩ := hlast hended
      have hchars : l.chars = l.text := by simp [Line.chars, hended]
      simp only [List.flatMap_nil, List.append_nil, scanFrom, hchars]
      refine faithful_close _ _ ?_
      rw [endsWithNewline_append hne, not_endsWithNewline hnl, List.count_append, hbefore.1,
        List.count_eq_zero.2 hnl]
      simp
      omega

/-- All that scanning finds in a text agrees with the text. -/
theorem faithful_scan (cs : List Char) : Faithful cs 0 (scan cs) (size cs) := by
  have hstart : LinesBefore [] 0 := ⟨rfl, .inl rfl⟩
  have h := faithful_scanFrom [] true (lines cs) hstart (regular_lines cs)
  rw [List.nil_append, flatMap_chars_lines] at h
  exact h

/-- No two names in a text have the same span. -/
theorem pairwise_span_ne {ts : List Token} {low high : Nat} (hordered : Ordered low ts high)
    (hnonempty : ∀ t ∈ ts, t.kind.isStructural ∨ t.span.start < t.span.stop) :
    (ts.filter fun t => t.kind = .identifier).Pairwise fun a b => a.span ≠ b.span := by
  have hpairwise := (hordered.pairwise.filter fun t => t.kind = .identifier).imp_of_mem
    (S := fun a b => a.span ≠ b.span) ?_
  · exact hpairwise
  · intro a b ha hb hle heq
    obtain ⟨hmem, hkind⟩ := List.mem_filter.1 ha
    have hkind : a.kind = .identifier := by simpa using hkind
    rcases hnonempty a hmem with h | h
    · rw [hkind] at h
      exact absurd h (by decide)
    · rw [← heq] at hle
      omega

end Layout

end Offside
