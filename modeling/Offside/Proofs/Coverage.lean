import Offside.Proofs.Lines
import Offside.Proofs.Pieces

/-!
# Scanning loses nothing

Every character of a text is part of a token or of a fault, unless scanning passes over it: a line
that is not visible, the indentation of a line, blanks outside of text literals, and comments. What
is passed over is told by the lines and the quotes on them alone.

* `Text.slice_append`: the characters at a span;
* `Text.Line.Skips`: the characters of a line that are passed over;
* `Scan.covered`: the spans of what is found in a text;
* `Layout.Shows`: a scan that finds what is not passed over, each character once;
* `Layout.scan_covers`: what the scan of every text finds.
-/

namespace Offside

/-! ### Slices -/

namespace Text

theorem dropBytes_size (as bs : List Char) : dropBytes (size as) (as ++ bs) = bs := by
  induction as with
  | nil => simp [dropBytes]
  | cons c as ih =>
    obtain ⟨n, hn⟩ : ∃ n, size (c :: as) = n + 1 :=
      Nat.exists_eq_succ_of_ne_zero (Nat.ne_of_gt (size_pos (List.cons_ne_nil c as)))
    rw [hn, List.cons_append, dropBytes, ← hn, size_cons, Nat.add_sub_cancel_left, ih]

theorem takeBytes_size (as bs : List Char) : takeBytes (size as) (as ++ bs) = as := by
  induction as with
  | nil =>
    cases bs with
    | nil => rfl
    | cons c bs => exact if_neg (Nat.not_le_of_gt (Char.utf8Size_pos c))
  | cons c as ih =>
    rw [size_cons, List.cons_append, takeBytes, if_pos (Nat.le_add_right _ _),
      Nat.add_sub_cancel_left, ih]

/-- The characters at the span of a stretch of a text are that stretch. -/
theorem slice_append (as bs cs : List Char) :
    slice (as ++ bs ++ cs) ⟨size as, size as + size bs⟩ = bs := by
  rw [slice, List.append_assoc, dropBytes_size, Nat.add_sub_cancel_left, takeBytes_size]

/-! ### Lines of a text -/

/-- A line in its text: the lines before it have their line feeds. -/
theorem Regular.middle {as bs : List Line} {l : Line} (h : Regular (as ++ l :: bs)) :
    (as.flatMap Line.chars).count '\n' = as.length ∧ '\n' ∉ l.text ∧
      (l.ended = false → bs = [] ∧ l.text ≠ []) := by
  induction as with
  | nil => exact ⟨rfl, h.1, h.2.1⟩
  | cons a as ih =>
    obtain ⟨hline, hended, hrest⟩ := h
    obtain ⟨hcount, hl⟩ := ih hrest
    have ha : a.ended = true := by
      by_contra hne
      have := (hended (Bool.eq_false_iff.2 hne)).1
      simp at this
    refine ⟨?_, hl⟩
    rw [List.flatMap_cons, List.count_append, hcount, Line.chars, ha, if_pos rfl, List.count_append,
      List.count_eq_zero.2 hline]
    simp [Nat.add_comm]

/-- Whether scanning passes over the character `c` of a line, which stands after `before`: the line is
not visible, or the character belongs to its indentation, or is a blank outside of text literals, or
belongs to a comment. -/
def Line.Skips (l : Line) (before : List Char) (c : Char) : Prop :=
  ¬l.Visible ∨ (∀ d ∈ before ++ [c], Indent.isPart d = true) ∨
    (Piece.isGap c = true ∧ Piece.Unquoted before) ∨
    (c ≠ '\n' ∧ Piece.Commented l.text before.length)

/-- The characters of a line, each with whether scanning keeps it. -/
def Line.shown (l : Line) : List (Char × Bool) :=
  if l.Visible then
    l.blanks.map (·, false) ++ (Piece.cut l.body).flatMap Piece.shown ++
      (if l.ended then ['\n'] else []).map (·, true)
  else l.chars.map (·, false)

end Text

/-! ### Spans -/

/-- Whether a span has a byte. -/
def Span.Has (s : Span) (b : Nat) : Prop := s.start ≤ b ∧ b < s.stop

/-- Spans without a byte in common, one after the other. -/
def Span.Apart (s s' : Span) : Prop := s.stop ≤ s'.start ∨ s'.stop ≤ s.start

/-- Whether a fault is one of characters, and not of indentation. -/
def Diagnostic.isOfCharacters (d : Diagnostic) : Bool :=
  d.cause = .lexical .unexpectedCharacter || d.cause = .lexical .unterminatedText

/-- The spans of what is found on lines: tokens other than indents, and faults of characters. -/
def Scan.covered (s : Scan) : List Span :=
  (s.tokens.filter fun t => t.kind ≠ .indent).map Token.span ++
    (s.errors.filter Diagnostic.isOfCharacters).map Diagnostic.span

theorem Scan.mem_covered {s : Scan} {m : Span} :
    m ∈ s.covered ↔ (∃ t ∈ s.tokens, t.kind ≠ .indent ∧ t.span = m) ∨
      ∃ d ∈ s.errors, d.isOfCharacters = true ∧ d.span = m := by
  simp [Scan.covered, and_assoc]

theorem Scan.covered_append (a b : Scan) : (a ++ b).covered.Perm (a.covered ++ b.covered) := by
  unfold Scan.covered
  rw [Layout.Scan.tokens_append, Layout.Scan.errors_append]
  simp only [List.filter_append, List.map_append, List.append_assoc]
  refine List.Perm.append_left _ ?_
  rw [← List.append_assoc, ← List.append_assoc]
  exact List.Perm.append_right _ List.perm_append_comm

namespace Layout

open Text (Line size)

/-- The tokens and faults of a stretch of text show its characters: what is found lies within the
stretch, without overlap, and covers exactly the characters that are marked; and a token that stands
for characters has them as its text. -/
structure Shows (low : Nat) (s : Scan) (shown : List (Char × Bool)) (high : Nat) : Prop where
  extent : high = low + size (shown.map Prod.fst)
  within : ∀ m ∈ s.covered, low ≤ m.start ∧ m.start ≤ m.stop ∧ m.stop ≤ high
  apart : s.covered.Pairwise Span.Apart
  covers : ∀ x c kept y, shown = x ++ (c, kept) :: y →
    ∀ b, low + size (x.map Prod.fst) ≤ b → b < low + size (x.map Prod.fst) + c.utf8Size →
      ((∃ m ∈ s.covered, m.Has b) ↔ kept = true)
  lexemes : ∀ t ∈ s.tokens, t.kind.isStructural = false ∨ t.kind = .indent →
    ∃ x z y, shown.map Prod.fst = x ++ z ++ y ∧ t.span = ⟨low + size x, low + size x + size z⟩ ∧
      t.lexeme = String.ofList z

theorem Shows.append {low middle high : Nat} {a b : Scan} {as bs : List (Char × Bool)}
    (ha : Shows low a as middle) (hb : Shows middle b bs high) : Shows low (a ++ b) (as ++ bs) high := by
  have hperm := Scan.covered_append a b
  have hmem : ∀ m, m ∈ (a ++ b).covered ↔ m ∈ a.covered ∨ m ∈ b.covered := by
    intro m
    rw [hperm.mem_iff, List.mem_append]
  have hmiddle := ha.extent
  have hend := hb.extent
  refine ⟨?_, fun m hm => ?_, ?_, ?_, ?_⟩
  · rw [List.map_append, Text.size_append]
    omega
  · rcases (hmem m).1 hm with hm | hm
    · have := ha.within m hm
      omega
    · have := hb.within m hm
      omega
  · have hsymm : ∀ s s', Span.Apart s s' → Span.Apart s' s := fun _ _ h => h.symm
    rw [hperm.pairwise_iff (hsymm _ _), List.pairwise_append]
    refine ⟨ha.apart, hb.apart, fun m hm m' hm' => .inl ?_⟩
    exact Nat.le_trans (ha.within m hm).2.2 (hb.within m' hm').1
  · intro x c kept y hsplit n hstart hstop
    rcases Piece.append_eq_append_cons hsplit with ⟨u, rfl⟩ | ⟨x', rfl, rfl⟩
    · rw [← ha.covers x c kept u rfl n hstart hstop]
      -- what is found in the second stretch lies behind the character
      have hbound : n < middle := by
        rw [hmiddle]
        simp only [List.map_append, List.map_cons, Text.size_append, Text.size_cons]
        omega
      constructor
      · rintro ⟨m, hm, hhas⟩
        rcases (hmem m).1 hm with hm | hm
        · exact ⟨m, hm, hhas⟩
        · have := hb.within m hm
          have := hhas.1
          omega
      · rintro ⟨m, hm, hhas⟩
        exact ⟨m, (hmem m).2 (.inl hm), hhas⟩
    · rw [List.map_append, Text.size_append] at hstart hstop
      rw [← hb.covers x' c kept y rfl n (by omega) (by omega)]
      constructor
      · rintro ⟨m, hm, hhas⟩
        rcases (hmem m).1 hm with hm | hm
        · have := ha.within m hm
          have := hhas.2
          omega
        · exact ⟨m, hm, hhas⟩
      · rintro ⟨m, hm, hhas⟩
        exact ⟨m, (hmem m).2 (.inr hm), hhas⟩
  · intro t ht hkind
    rcases List.mem_append.1 ht with ht | ht
    · obtain ⟨x, z, y, hsplit, hspan, hlexeme⟩ := ha.lexemes t ht hkind
      exact ⟨x, z, y ++ bs.map Prod.fst, by simp [hsplit], hspan, hlexeme⟩
    · obtain ⟨x, z, y, hsplit, hspan, hlexeme⟩ := hb.lexemes t ht hkind
      refine ⟨as.map Prod.fst ++ x, z, y, by simp [hsplit], ?_, hlexeme⟩
      rw [hspan, Text.size_append, hmiddle, Nat.add_assoc, Nat.add_assoc]

theorem eq_of_mem_map_pair {chars : List Char} {kept k : Bool} {x y : List (Char × Bool)} {c : Char}
    (h : chars.map (·, kept) = x ++ (c, k) :: y) :
    k = kept ∧ chars = x.map Prod.fst ++ c :: y.map Prod.fst := by
  have hmem : (c, k) ∈ chars.map (·, kept) := by simp [h]
  obtain ⟨_, -, heq⟩ := List.mem_map.1 hmem
  have hmap := congrArg (List.map Prod.fst) h
  exact ⟨(Prod.mk.inj heq).2.symm, by simpa [Function.comp_def] using hmap⟩

/-- A stretch that is kept or passed over as a whole: what is found is the stretch itself and nothing
else, or only what is empty at its end. -/
theorem shows_stretch {low high : Nat} {s : Scan} (chars : List Char) (kept : Bool)
    (hhigh : high = low + size chars)
    (hcovered : if kept then s.covered = [⟨low, high⟩] else ∀ m ∈ s.covered, m = Span.empty high)
    (hlexemes : ∀ t ∈ s.tokens, t.kind.isStructural = false ∨ t.kind = .indent →
      t.span = ⟨low, high⟩ ∧ t.lexeme = String.ofList chars) :
    Shows low s (chars.map (·, kept)) high := by
  have hmap : (chars.map (·, kept)).map Prod.fst = chars := by simp [Function.comp_def]
  refine ⟨by rw [hmap, hhigh], ?_, ?_, ?_, ?_⟩
  · intro m hm
    cases kept with
    | true =>
      have hfound : s.covered = [⟨low, high⟩] := hcovered
      rw [hfound] at hm
      obtain rfl : m = ⟨low, high⟩ := List.mem_singleton.1 hm
      exact ⟨Nat.le_refl _, by simp [hhigh], Nat.le_refl _⟩
    | false =>
      obtain rfl : m = Span.empty high := hcovered m hm
      exact ⟨by simp [Span.empty, hhigh], Nat.le_refl _, Nat.le_refl _⟩
  · cases kept with
    | true => exact (show s.covered = [⟨low, high⟩] from hcovered) ▸ List.pairwise_singleton _ _
    | false =>
      refine List.pairwise_of_forall_mem_list fun m hm m' hm' => ?_
      rw [hcovered m hm, hcovered m' hm']
      exact .inl (Nat.le_refl _)
  · intro x c k y hsplit b hstart hstop
    obtain ⟨hkept, hchars⟩ := eq_of_mem_map_pair hsplit
    rw [hkept]
    cases kept with
    | true =>
      have hbound : b < high := by
        rw [hhigh, hchars, Text.size_append, Text.size_cons]
        omega
      have hfound : s.covered = [⟨low, high⟩] := hcovered
      refine ⟨fun _ => rfl, fun _ => ⟨⟨low, high⟩, by simp [hfound], ?_, hbound⟩⟩
      exact Nat.le_trans (Nat.le_add_right _ _) hstart
    | false =>
      refine ⟨?_, fun h => absurd h Bool.false_ne_true⟩
      rintro ⟨m, hm, hbelow, habove⟩
      rw [hcovered m hm] at hbelow habove
      exact absurd habove (Nat.not_lt_of_ge hbelow)
  · intro t ht hkind
    obtain ⟨hspan, hlexeme⟩ := hlexemes t ht hkind
    exact ⟨[], chars, [], by simp [hmap], by simp [hspan, hhigh], hlexeme⟩

theorem shows_nothing (offset : Nat) : Shows offset ⟨[], []⟩ [] offset :=
  shows_stretch [] false rfl (fun _ hm => by cases hm) fun _ ht => by cases ht

/-! ### The parts of a line -/

theorem shows_piece {p : Piece} (hp : ∀ kind, p.cls = .token kind → kind.isStructural = false)
    (number offset : Nat) :
    Shows offset (scanPieces number offset [p]) p.shown (offset + size p.chars) := by
  refine shows_stretch p.chars p.cls.isKept rfl ?_ ?_
  · rcases hcls : p.cls with _ | _ | kind | _ | _ <;>
      simp only [scanPieces, hcls, PieceClass.isKept, Scan.covered]
    · simp
    · simp
    · have hkind : kind ≠ .indent := by
        rintro rfl
        exact absurd (hp _ hcls) (by decide)
      simp [hkind]
    · simp [Diagnostic.isOfCharacters]
    · simp [Diagnostic.isOfCharacters]
  · intro t ht _
    simp only [scanPieces] at ht
    rcases hcls : p.cls with _ | _ | kind | _ | _ <;> rw [hcls] at ht
    · cases ht
    · cases ht
    · rw [List.mem_singleton.1 ht]
      exact ⟨rfl, rfl⟩
    · cases ht
    · cases ht

theorem shows_scanPieces {pieces : List Piece}
    (hpieces : ∀ p ∈ pieces, ∀ kind, p.cls = .token kind → kind.isStructural = false)
    (number offset : Nat) :
    Shows offset (scanPieces number offset pieces) (pieces.flatMap Piece.shown)
      (offset + size (pieces.flatMap Piece.chars)) := by
  induction pieces generalizing offset with
  | nil => exact shows_nothing offset
  | cons p pieces ih =>
    obtain ⟨hp, hrest⟩ := List.forall_mem_cons.1 hpieces
    rw [scanPieces_cons, List.flatMap_cons, List.flatMap_cons, Text.size_append, ← Nat.add_assoc]
    exact (shows_piece hp number offset).append (ih hrest _)

/-- The faults that an indentation brings about are reported at its token, for one of three causes. -/
theorem eq_fault_of_mem_shift {levels : List Indent} {current : Indent} {mark : Token}
    {d : Diagnostic} (hd : d ∈ (shift levels current mark).2.errors) :
    ∃ e ∈ [LexicalError.inconsistentIndentation, .indentationTooDeep maxDepth, .unmatchedIndentation],
      d = fault mark e := by
  unfold shift at hd
  split at hd
  · dsimp only at hd
    split at hd
    · exact ⟨_, by simp, List.mem_singleton.1 hd⟩
    · cases hd
  · split at hd
    · rcases List.mem_append.1 hd with hd | hd <;> split at hd
      · exact ⟨_, by simp, List.mem_singleton.1 hd⟩
      · cases hd
      · exact ⟨_, by simp, List.mem_singleton.1 hd⟩
      · cases hd
    · simp only [shrink] at hd
      split at hd
      · exact ⟨_, by simp, List.mem_singleton.1 hd⟩
      · split at hd
        · exact ⟨_, by simp, List.mem_singleton.1 hd⟩
        · cases hd

/-- Faults of indentation are not of characters. -/
theorem not_isOfCharacters_shift (levels : List Indent) (current : Indent) (mark : Token) :
    ∀ d ∈ (shift levels current mark).2.errors, d.isOfCharacters = false := by
  intro d hd
  obtain ⟨e, he, rfl⟩ := eq_fault_of_mem_shift hd
  simp only [List.mem_cons, List.not_mem_nil, or_false] at he
  rcases he with rfl | rfl | rfl <;> rfl

theorem mem_shift_tokens {levels : List Indent} {current : Indent} {mark t : Token}
    (ht : t ∈ (shift levels current mark).2.tokens) :
    t = mark ∨ t.kind = .dedent ∧ t.span = Span.empty mark.span.stop := by
  unfold shift at ht
  split at ht
  · cases ht
  · split at ht
    · exact .inl (List.mem_singleton.1 ht)
    · rw [(List.mem_replicate.1 ht).2]
      exact .inr ⟨rfl, rfl⟩

theorem shows_shift (levels : List Indent) (number offset : Nat) (l : Line) :
    Shows offset (shift levels l.indent (mark number offset l)).2 (l.blanks.map (·, false))
      (offset + size l.blanks) := by
  refine shows_stretch l.blanks false rfl ?_ ?_
  · intro m hm
    rcases Scan.mem_covered.1 hm with ⟨t, ht, hkind, rfl⟩ | ⟨d, hd, hcause, -⟩
    · rcases mem_shift_tokens ht with rfl | ⟨-, hspan⟩
      · exact absurd rfl hkind
      · exact hspan
    · rw [not_isOfCharacters_shift _ _ _ d hd] at hcause
      cases hcause
  · intro t ht hkind
    rcases mem_shift_tokens ht with rfl | ⟨hdedent, -⟩
    · exact ⟨rfl, rfl⟩
    · rw [hdedent] at hkind
      rcases hkind with hkind | hkind <;> cases hkind

/-! ### Lines -/

theorem map_fst_shown_pieces (pieces : List Piece) :
    (pieces.flatMap Piece.shown).map Prod.fst = pieces.flatMap Piece.chars := by
  rw [List.map_flatMap]
  simp [Piece.shown, Function.comp_def]

theorem map_fst_shown (l : Line) : l.shown.map Prod.fst = l.chars := by
  unfold Line.shown
  split
  · rw [List.map_append, List.map_append, map_fst_shown_pieces, Piece.flatMap_chars_cut, Line.chars,
      ← l.blanks_append_body]
    simp [Function.comp_def]
  · simp [Function.comp_def]

theorem map_fst_shown_lines (ls : List Line) :
    (ls.flatMap Line.shown).map Prod.fst = ls.flatMap Line.chars := by
  rw [List.map_flatMap]
  exact List.flatMap_congr fun l _ => map_fst_shown l

theorem shows_scanLine (levels : List Indent) (number offset : Nat) (l : Line) :
    Shows offset (scanLine levels number offset l).2 l.shown (offset + l.size) := by
  unfold Line.shown
  split
  · next hvisible =>
    have hbody := shows_scanPieces (Piece.not_isStructural_of_mem_cut l.body) number
      (offset + size l.blanks)
    have htext : offset + size l.blanks + size l.body = offset + size l.text := by
      rw [Nat.add_assoc, ← Text.size_append, l.blanks_append_body]
    rw [Piece.flatMap_chars_cut, htext] at hbody
    have hending : Shows (offset + size l.text) ⟨[ending number offset l], []⟩
        ((if l.ended then ['\n'] else []).map (·, true)) (offset + l.size) := by
      cases hended : l.ended with
      | true =>
        refine shows_stretch ['\n'] true ?_ rfl ?_
        · simp [Line.size, hended, Nat.add_assoc, show '\n'.utf8Size = 1 from rfl]
        · intro t ht hkind
          rw [List.mem_singleton.1 ht] at hkind
          rcases hkind with hkind | hkind <;> cases hkind
      | false =>
        have hsize : offset + l.size = offset + size l.text := by simp [Line.size, hended]
        refine shows_stretch [] false (by simp [hsize]) ?_ ?_
        · intro m hm
          obtain rfl : m = ⟨offset + size l.text, offset + l.size⟩ := by
            simpa [Scan.covered, ending] using hm
          simp [Span.empty, hsize]
        · intro t ht hkind
          rw [List.mem_singleton.1 ht] at hkind
          rcases hkind with hkind | hkind <;> cases hkind
    rw [scanLine_of_visible hvisible]
    exact ((shows_shift levels number offset l).append hbody).append hending
  · next hinvisible =>
    rw [scanLine_of_invisible hinvisible]
    exact shows_stretch l.chars false (by rw [l.size_chars]) (fun _ hm => by cases hm)
      fun _ ht => by cases ht

theorem shows_scanLines (levels : List Indent) (number offset : Nat) (ls : List Line) :
    Shows offset (scanLines levels number offset ls).2 (ls.flatMap Line.shown)
      (offset + linesSize ls) := by
  induction ls generalizing levels number offset with
  | nil => exact shows_nothing offset
  | cons l ls ih =>
    rw [scanLines_cons, List.flatMap_cons, linesSize, ← Nat.add_assoc]
    exact (shows_scanLine levels (number + 1) offset l).append (ih _ _ _)

theorem shows_close (levels : List Indent) (number offset : Nat) (ended : Bool) :
    Shows offset (close levels number offset ended) [] offset := by
  refine shows_stretch [] false rfl ?_ ?_
  · intro m hm
    rcases Scan.mem_covered.1 hm with ⟨t, ht, -, rfl⟩ | ⟨d, hd, hcause, -⟩
    · rcases List.mem_append.1 ht with ht | ht
      · rw [(List.mem_replicate.1 ht).2]
      · rw [List.mem_singleton.1 ht]
    · simp only [close] at hd
      split at hd
      · cases hd
      · rw [List.mem_singleton.1 hd] at hcause
        cases hcause
  · intro t ht hkind
    rcases List.mem_append.1 ht with ht | ht
    · rw [(List.mem_replicate.1 ht).2] at hkind
      rcases hkind with hkind | hkind <;> cases hkind
    · rw [List.mem_singleton.1 ht] at hkind
      rcases hkind with hkind | hkind <;> cases hkind

theorem shows_scan (cs : List Char) :
    Shows 0 (scan cs) ((Text.lines cs).flatMap Line.shown) (size cs) := by
  have hlines := shows_scanLines [] 0 0 (Text.lines cs)
  rw [Nat.zero_add] at hlines
  have h := hlines.append (shows_close (scanLines [] 0 0 (Text.lines cs)).1
    (Text.lines cs).length _ (lastEnded true (Text.lines cs)))
  rwa [List.append_nil, ← scan_eq_close, linesSize_lines] at h

/-! ### What is passed over -/

theorem reached_blanks (l : Line) : Piece.Reached l.text l.blanks := by
  have hstart : Piece.Reached l.text [] := ⟨rfl, fun _ hn => absurd hn (Nat.not_lt_zero _)⟩
  have htext : l.text = [] ++ l.blanks ++ l.body := by rw [List.nil_append, l.blanks_append_body]
  have hquote : '"' ∉ l.blanks := fun hmem => absurd (Line.isPart_of_mem_blanks hmem) (by decide)
  refine Piece.reached_append htext hstart (hstart.unquoted.append hquote) fun u v huv => ?_
  exact absurd (Line.isPart_of_mem_blanks (Piece.mem_of_append_cons huv).1) (by decide)

/-- What follows the indentation of a line does not go on with it. -/
theorem not_isPart_of_body {l : Line} {c : Char} {rest : List Char} (h : l.body = c :: rest) :
    Indent.isPart c = false := by
  have := List.head?_dropWhile_not Indent.isPart l.text
  rw [← Line.body, h] at this
  simpa using this

/-- Scanning keeps exactly the characters of a line that it does not pass over. -/
theorem kept_iff_not_skips {l : Line} (hline : '\n' ∉ l.text) {x y : List (Char × Bool)} {c : Char}
    {kept : Bool} (h : l.shown = x ++ (c, kept) :: y) :
    kept = true ↔ ¬l.Skips (x.map Prod.fst) c := by
  by_cases hvisible : l.Visible
  · rw [Line.shown, if_pos hvisible, List.append_assoc] at h
    rcases Piece.append_eq_append_cons h with ⟨u, hu⟩ | ⟨x', rfl, hx'⟩
    · -- the indentation
      obtain ⟨rfl, hblanks⟩ := eq_of_mem_map_pair hu
      refine ⟨nofun, fun hskips => absurd (.inr (.inl fun d hd => ?_)) hskips⟩
      refine Line.isPart_of_mem_blanks (l := l) ?_
      rw [hblanks]
      simp only [List.mem_append, List.mem_cons] at hd ⊢
      tauto
    · have hbefore : ((l.blanks.map (·, false)) ++ x').map Prod.fst =
          l.blanks ++ x'.map Prod.fst := by simp [Function.comp_def]
      rw [hbefore]
      rcases Piece.append_eq_append_cons hx' with ⟨u, hu⟩ | ⟨x'', rfl, hending⟩
      · -- a piece
        have hbody : l.body = x'.map Prod.fst ++ c :: u.map Prod.fst := by
          have := congrArg (List.map Prod.fst) hu
          rwa [map_fst_shown_pieces, Piece.flatMap_chars_cut, List.map_append] at this
        have hc : c ≠ '\n' := by
          rintro rfl
          refine hline ?_
          rw [← l.blanks_append_body, hbody]
          simp
        have hindent : ¬∀ d ∈ l.blanks ++ x'.map Prod.fst ++ [c], Indent.isPart d = true := by
          intro hall
          cases hx : x'.map Prod.fst with
          | nil =>
            rw [hx, List.nil_append] at hbody
            have := hall c (by simp)
            rw [not_isPart_of_body hbody] at this
            cases this
          | cons d w =>
            rw [hx, List.cons_append] at hbody
            have := hall d (by simp [hx])
            rw [not_isPart_of_body hbody] at this
            cases this
        rw [Piece.kept_iff hline l.body l.blanks_append_body.symm (reached_blanks l) hu,
          Line.Skips, Piece.Passed]
        simp only [hvisible, not_true_eq_false, hindent, false_or, hc, ne_eq, not_false_eq_true,
          true_and]
      · -- the line feed
        obtain ⟨rfl, hchars⟩ := eq_of_mem_map_pair hending
        have hc : c = '\n' := by
          have hmem : c ∈ (if l.ended then ['\n'] else []) := by simp [hchars]
          split at hmem
          · exact List.mem_singleton.1 hmem
          · cases hmem
        refine ⟨fun _ => ?_, fun _ => rfl⟩
        rintro (hskips | hskips | ⟨hskips, -⟩ | ⟨hskips, -⟩)
        · exact hskips hvisible
        · exact absurd (hskips c (by simp)) (by rw [hc]; decide)
        · exact absurd hskips (by rw [hc]; decide)
        · exact hskips hc
  · rw [Line.shown, if_neg hvisible] at h
    obtain ⟨rfl, -⟩ := eq_of_mem_map_pair h
    exact ⟨nofun, fun hskips => absurd (.inl hvisible) hskips⟩

/-! ### Ends of lines -/

/-- A newline token ends a line. -/
theorem exists_line_of_newline (levels : List Indent) (number offset : Nat) (ls : List Line) :
    ∀ t ∈ (scanLines levels number offset ls).2.tokens, t.kind = .newline →
      ∃ as l bs, ls = as ++ l :: bs ∧
        t = ending (number + as.length + 1) (offset + linesSize as) l := by
  induction ls generalizing levels number offset with
  | nil => simp [scanLines]
  | cons l ls ih =>
    intro t ht hkind
    rw [scanLines_cons, Scan.tokens_append] at ht
    rcases List.mem_append.1 ht with ht | ht
    · refine ⟨[], l, ls, rfl, ?_⟩
      by_cases hvisible : l.Visible
      · rw [scanLine_of_visible hvisible, Scan.tokens_append, Scan.tokens_append] at ht
        rcases List.mem_append.1 ht with ht | ht
        · rcases List.mem_append.1 ht with ht | ht
          · rcases mem_shift_tokens ht with rfl | ⟨hdedent, -⟩
            · cases hkind
            · rw [hdedent] at hkind
              cases hkind
          · have := not_isStructural_scanBody _ _ _ t ht
            rw [hkind] at this
            cases this
        · exact List.mem_singleton.1 ht
      · rw [scanLine_of_invisible hvisible] at ht
        cases ht
    · obtain ⟨as, m, bs, rfl, hending⟩ := ih _ _ _ t ht hkind
      refine ⟨l :: as, m, bs, rfl, ?_⟩
      rw [hending, linesSize, List.length_cons]
      congr 1 <;> omega

/-- A newline token is the line feed of its line, or the end of a text that does not end with one. -/
theorem newline_of_mem_scan {cs : List Char} {t : Token} (ht : t ∈ (scan cs).tokens)
    (hkind : t.kind = .newline) :
    ∃ before after, cs = before ++ after ∧ t.line = before.count '\n' + 1 ∧
      ((after.head? = some '\n' ∧ t.span = ⟨size before, size before + 1⟩) ∨
        (after = [] ∧ Text.endsWithNewline cs = false ∧ t.span = Span.empty (size cs))) := by
  have hmem : t ∈ (scanLines [] 0 0 (Text.lines cs)).2.tokens := by
    rw [scan_eq_close, Scan.tokens_append] at ht
    rcases List.mem_append.1 ht with ht | ht
    · exact ht
    · rcases List.mem_append.1 ht with ht | ht
      · rw [(List.mem_replicate.1 ht).2] at hkind
        cases hkind
      · rw [List.mem_singleton.1 ht] at hkind
        cases hkind
  obtain ⟨as, l, bs, hlines, rfl⟩ := exists_line_of_newline _ _ _ _ t hmem hkind
  have hregular := Text.regular_lines cs
  rw [hlines] at hregular
  obtain ⟨hcount, hline, hended⟩ := hregular.middle
  have hcs : cs = as.flatMap Line.chars ++ l.text ++
      ((if l.ended then ['\n'] else []) ++ bs.flatMap Line.chars) := by
    rw [← Text.flatMap_chars_lines cs, hlines, List.flatMap_append, List.flatMap_cons]
    simp [Line.chars]
  have hsize : 0 + linesSize as + size l.text = size (as.flatMap Line.chars ++ l.text) := by
    rw [Nat.zero_add, linesSize_eq, Text.size_append]
  refine ⟨_, _, hcs, ?_, ?_⟩
  · rw [List.count_append, hcount, List.count_eq_zero.2 hline]
    simp [ending]
  · cases hl : l.ended with
    | true =>
      refine .inl ⟨by simp, ?_⟩
      rw [← hsize]
      simp [ending, Line.size, hl, Nat.add_assoc]
    | false =>
      obtain ⟨rfl, hne⟩ := hended hl
      rw [hl, if_neg Bool.false_ne_true, List.flatMap_nil, List.append_nil, List.append_nil] at hcs
      refine .inr ⟨by simp, ?_, ?_⟩
      · rw [hcs, Text.endsWithNewline_append hne, Text.not_endsWithNewline hline]
      · rw [hcs, ← hsize]
        simp [ending, Line.size, hl, Span.empty]

/-! ### Texts -/

/-- Scanning loses nothing. The tokens of a text stand in order and without overlap; a token of a
line has the text that it covers, and so has an indent; a newline is the line feed that ends its line,
or is empty at the end. Tokens other than indents and faults of characters do not overlap, and
together they have exactly the bytes of the characters that are not passed over. -/
theorem scan_covers (cs : List Char) :
    (scan cs).tokens.Pairwise (fun t u => t.span.stop ≤ u.span.start) ∧
      (∀ t ∈ (scan cs).tokens, t.span.start ≤ t.span.stop) ∧
      (∀ t ∈ (scan cs).tokens, t.kind.isStructural = false ∨ t.kind = .indent →
        t.lexeme = String.ofList (Text.slice cs t.span)) ∧
      (∀ t ∈ (scan cs).tokens, t.kind = .newline →
        ∃ before after, cs = before ++ after ∧ t.line = before.count '\n' + 1 ∧
          ((after.head? = some '\n' ∧ t.span = ⟨size before, size before + 1⟩) ∨
            (after = [] ∧ Text.endsWithNewline cs = false ∧ t.span = Span.empty (size cs)))) ∧
      (scan cs).covered.Pairwise Span.Apart ∧
      ∀ ls l ls' before c after, Text.lines cs = ls ++ l :: ls' → l.chars = before ++ c :: after →
        ∀ byte, linesSize ls + size before ≤ byte →
          byte < linesSize ls + size before + c.utf8Size →
            ((∃ span ∈ (scan cs).covered, span.Has byte) ↔ ¬l.Skips before c) := by
  have hshows := shows_scan cs
  have hordered := (faithful_scan cs).ordered
  refine ⟨hordered.pairwise, fun t ht => hordered.start_le_stop ht, ?_,
    fun t ht => newline_of_mem_scan ht, hshows.apart, ?_⟩
  · intro t ht hkind
    obtain ⟨x, z, y, hsplit, hspan, hlexeme⟩ := hshows.lexemes t ht hkind
    have hcs : cs = x ++ z ++ y := by
      rw [← hsplit, map_fst_shown_lines, Text.flatMap_chars_lines]
    rw [hlexeme, hspan, hcs, Nat.zero_add, Text.slice_append]
  · intro ls l ls' before c after hlines hchars byte hstart hstop
    -- the character among the characters of the text
    have hregular := Text.regular_lines cs
    rw [hlines] at hregular
    obtain ⟨x, pair, y, hshown, rfl, rfl, rfl⟩ : ∃ x p y, l.shown = x ++ p :: y ∧
        before = x.map Prod.fst ∧ c = p.1 ∧ after = y.map Prod.fst := by
      have hmap : l.shown.map Prod.fst = before ++ c :: after := by rw [map_fst_shown, hchars]
      obtain ⟨x, rest, hshown, hx, hrest⟩ := List.map_eq_append_iff.1 hmap
      obtain ⟨p, y, rfl, hp, hy⟩ := List.map_eq_cons_iff.1 hrest
      exact ⟨x, p, y, hshown, hx.symm, hp.symm, hy.symm⟩
    obtain ⟨c, kept⟩ := pair
    rw [← kept_iff_not_skips hregular.middle.2.1 hshown]
    refine hshows.covers (ls.flatMap Line.shown ++ x) c kept (y ++ ls'.flatMap Line.shown) ?_ byte ?_ ?_
    · rw [hlines, List.flatMap_append, List.flatMap_cons, hshown]
      simp
    · rw [List.map_append, Text.size_append, map_fst_shown_lines, ← linesSize_eq, Nat.zero_add]
      exact hstart
    · rw [List.map_append, Text.size_append, map_fst_shown_lines, ← linesSize_eq, Nat.zero_add]
      exact hstop

end Layout

end Offside
