import Offside.Proofs.Lines

/-!
# The stack of open levels

Scanning keeps a stack of levels above the base. It makes an indent token exactly when it puts a level
on the stack, and a dedent token exactly when it takes one away, so the tokens made so far tell the
stack. Whatever faults a text has, the base is never taken away, and the columns of the levels increase
from the base up; without an inconsistent line, so do the columns with a tab counted as one.

* `Layout.track`, `Layout.stackAfter`: the stack that tokens tell;
* `Layout.Throughout`: what holds of the stack all the while;
* `Layout.Steep`: levels that increase from the base up, by one of the two measures;
* `Layout.well_bracketed`: the stack of every text.
-/

namespace Offside.Layout

open Grammar (indents dedents Balanced)

/-! ### The stack that tokens tell -/

/-- The stack after one more token, innermost level first: an indent puts the level that its text
measures on top, and a dedent takes the top away. -/
def track (stack : List Indent) (t : Token) : List Indent :=
  if t.kind = .indent then Indent.ofChars t.lexeme.toList :: stack
  else if t.kind = .dedent then stack.tail
  else stack

/-- The stack after tokens, with the base at its bottom before the first. -/
def stackAfter (ts : List Token) : List Indent := ts.foldl track [Indent.base]

theorem foldl_track_plain {ts : List Token} (h : ∀ t ∈ ts, t.kind ≠ .indent ∧ t.kind ≠ .dedent)
    (stack : List Indent) : ts.foldl track stack = stack := by
  induction ts with
  | nil => rfl
  | cons t ts ih =>
    obtain ⟨⟨hindent, hdedent⟩, hrest⟩ := List.forall_mem_cons.1 h
    rw [List.foldl_cons, track, if_neg hindent, if_neg hdedent, ih hrest]

theorem foldl_track_replicate {t : Token} (ht : t.kind = .dedent) (n : Nat) (stack : List Indent) :
    (List.replicate n t).foldl track stack = stack.drop n := by
  induction n generalizing stack with
  | zero => rfl
  | succ n ih =>
    rw [List.replicate_succ, List.foldl_cons, ih, track, if_neg (by simp [ht]), if_pos ht,
      List.drop_tail]

theorem plain_of_not_isStructural {ts : List Token} (h : ∀ t ∈ ts, t.kind.isStructural = false) :
    ∀ t ∈ ts, t.kind ≠ .indent ∧ t.kind ≠ .dedent := by
  intro t ht
  have hkind := h t ht
  constructor <;>
  · intro heq
    rw [heq] at hkind
    cases hkind

/-- What holds of the stack before the first of some tokens and after each of them. -/
def Throughout (P : List Indent → Prop) (stack : List Indent) (ts : List Token) : Prop :=
  ∀ us, us <+: ts → P (us.foldl track stack)

section Throughout

variable {P : List Indent → Prop} {stack : List Indent} {ts us : List Token}

theorem Throughout.start (h : Throughout P stack ts) : P stack := h [] List.nil_prefix

theorem Throughout.finish (h : Throughout P stack ts) : P (ts.foldl track stack) :=
  h ts List.prefix_rfl

theorem throughout_append :
    Throughout P stack (ts ++ us) ↔
      Throughout P stack ts ∧ Throughout P (ts.foldl track stack) us := by
  constructor
  · intro h
    refine ⟨fun vs hvs => h vs (hvs.trans (List.prefix_append ts us)), fun vs hvs => ?_⟩
    rw [← List.foldl_append]
    exact h _ ((List.prefix_append_right_inj ts).2 hvs)
  · rintro ⟨hts, hus⟩ vs hvs
    rcases List.prefix_or_prefix_of_prefix hvs (List.prefix_append ts us) with h | ⟨ws, rfl⟩
    · exact hts vs h
    · rw [List.foldl_append]
      exact hus ws ((List.prefix_append_right_inj ts).1 hvs)

theorem throughout_plain (hP : P stack) (h : ∀ t ∈ ts, t.kind ≠ .indent ∧ t.kind ≠ .dedent) :
    Throughout P stack ts := by
  intro vs hvs
  rw [foldl_track_plain fun t ht => h t (hvs.subset ht)]
  exact hP

theorem throughout_replicate {t : Token} (ht : t.kind = .dedent) {n : Nat}
    (hP : ∀ k ≤ n, P (stack.drop k)) : Throughout P stack (List.replicate n t) := by
  intro vs hvs
  obtain ⟨hlength, heq⟩ := List.prefix_replicate_iff.1 hvs
  rw [heq, foldl_track_replicate ht]
  exact hP _ hlength

/-- As long as the stack is not empty, its height goes with the levels opened and closed. -/
theorem length_foldl_track (h : Throughout (· ≠ []) stack ts) :
    (ts.foldl track stack).length + dedents ts = stack.length + indents ts := by
  induction ts generalizing stack with
  | nil => rfl
  | cons t ts ih =>
    rw [← List.singleton_append, throughout_append] at h
    have hrest := ih h.2
    have hpos : 0 < stack.length := List.length_pos_iff.2 h.1.start
    rw [List.foldl_cons, Grammar.indents_cons, Grammar.dedents_cons]
    rw [List.foldl_cons, List.foldl_nil] at hrest
    have hstep : (track stack t).length + (if t.kind = .dedent then 1 else 0) =
        stack.length + if t.kind = .indent then 1 else 0 := by
      unfold track
      split
      · rename_i hkind
        simp [hkind]
      · split
        · rw [List.length_tail]
          omega
        · rfl
    omega

end Throughout

/-! ### Levels that increase -/

/-- Levels that a measure orders: from the base up, each measures more than the one below it. -/
def Steep (measure : Indent → Nat) (levels : List Indent) : Prop :=
  (levels ++ [Indent.base]).Pairwise fun inner outer => measure outer < measure inner

/-- A stack of such levels, with the base at its bottom. -/
def IsSteep (measure : Indent → Nat) (stack : List Indent) : Prop :=
  ∃ levels, stack = levels ++ [Indent.base] ∧ Steep measure levels

section Steep

variable {measure : Indent → Nat} {levels : List Indent}

theorem steep_nil : Steep measure [] := List.pairwise_singleton _ _

theorem Steep.isSteep (h : Steep measure levels) : IsSteep measure (levels ++ [Indent.base]) :=
  ⟨levels, rfl, h⟩

theorem Steep.of_isSteep (h : IsSteep measure (levels ++ [Indent.base])) : Steep measure levels := by
  obtain ⟨levels', heq, hsteep⟩ := h
  rwa [List.append_cancel_right heq]

/-- No level measures more than the innermost one. -/
theorem Steep.le_top (h : Steep measure levels) {l : Indent} (hl : l ∈ levels ++ [Indent.base]) :
    measure l ≤ measure (top levels) := by
  cases levels with
  | nil =>
    rw [List.mem_singleton.1 hl]
    exact Nat.le_refl _
  | cons m levels =>
    rcases List.mem_cons.1 hl with rfl | hl
    · exact Nat.le_refl _
    · exact Nat.le_of_lt ((List.pairwise_cons.1 h).1 l hl)

theorem steep_cons {l : Indent} :
    Steep measure (l :: levels) ↔ measure (top levels) < measure l ∧ Steep measure levels := by
  unfold Steep
  rw [List.cons_append, List.pairwise_cons]
  constructor
  · rintro ⟨hl, hlevels⟩
    refine ⟨hl _ ?_, hlevels⟩
    cases levels with
    | nil => exact List.mem_singleton_self _
    | cons m levels => exact List.mem_cons_self
  · rintro ⟨hl, hlevels⟩
    exact ⟨fun m hm => Nat.lt_of_le_of_lt (Steep.le_top hlevels hm) hl, hlevels⟩

theorem Steep.of_suffix {levels' : List Indent} (h : Steep measure levels)
    (hsuffix : levels' <:+ levels) : Steep measure levels' :=
  h.sublist (hsuffix.sublist.append_right _)

theorem keep_suffix (levels : List Indent) (column : Nat) : keep levels column <:+ levels :=
  List.dropWhile_suffix _

end Steep

/-! ### One line -/

/-- The tokens that the indentation of a line brings about tell the stack after it. -/
theorem foldl_track_shift (levels : List Indent) {current : Indent} {mark : Token}
    (hmark : mark.kind = .indent) (hlexeme : Indent.ofChars mark.lexeme.toList = current) :
    (shift levels current mark).2.tokens.foldl track (levels ++ [Indent.base]) =
      (shift levels current mark).1 ++ [Indent.base] := by
  unfold shift
  split
  · rfl
  · split
    · simp [deepen, track, hmark, hlexeme]
    · obtain ⟨closed, hclosed⟩ := keep_suffix levels current.column
      have hlength : levels.length - (keep levels current.column).length = closed.length := by
        have := congrArg List.length hclosed
        rw [List.length_append] at this
        omega
      simp only [shrink]
      rw [foldl_track_replicate rfl, hlength]
      conv_lhs => rw [← hclosed]
      rw [List.append_assoc, List.drop_left]

/-- The indentation of a line keeps the stack steep at every token, by each measure that tells the
levels it opens. -/
theorem throughout_shift {measure : Indent → Nat} {levels : List Indent} {current : Indent}
    {mark : Token} (hmark : mark.kind = .indent)
    (hlexeme : Indent.ofChars mark.lexeme.toList = current) (hlevels : Steep measure levels)
    (hdeeper : (top levels).column < current.column → measure (top levels) < measure current) :
    Throughout (IsSteep measure) (levels ++ [Indent.base]) (shift levels current mark).2.tokens := by
  unfold shift
  split
  · exact throughout_plain hlevels.isSteep (by simp)
  · split
    · rename_i hcolumn
      intro us hus
      rcases List.prefix_cons_iff.1 hus with rfl | ⟨vs, rfl, hvs⟩
      · exact hlevels.isSteep
      · rw [List.prefix_nil.1 hvs]
        simp only [List.foldl_cons, List.foldl_nil, track, hmark, if_true, hlexeme]
        have hsteep : Steep measure (current :: levels) := steep_cons.2 ⟨hdeeper hcolumn, hlevels⟩
        exact hsteep.isSteep
    · refine throughout_replicate rfl fun k hk => ?_
      rw [List.drop_append_of_le_length (Nat.le_trans hk (Nat.sub_le _ _))]
      exact (hlevels.of_suffix (List.drop_suffix k levels)).isSteep

theorem ofChars_lexeme_mark (number offset : Nat) (l : Text.Line) :
    Indent.ofChars (mark number offset l).lexeme.toList = l.indent := by
  rw [mark, String.toList_ofList]
  rfl

/-- A visible line has a greater measure than the innermost level if it opens a level. -/
def Deepens (measure : Indent → Nat) (levels : List Indent) (l : Text.Line) : Prop :=
  l.Visible → (top levels).column < l.indent.column → measure (top levels) < measure l.indent

theorem foldl_track_scanLine (levels : List Indent) (number offset : Nat) (l : Text.Line) :
    (scanLine levels number offset l).2.tokens.foldl track (levels ++ [Indent.base]) =
      (scanLine levels number offset l).1 ++ [Indent.base] := by
  by_cases hl : l.Visible
  · rw [scanLine_of_visible hl, Scan.tokens_append, Scan.tokens_append, List.foldl_append,
      List.foldl_append, foldl_track_shift levels rfl (ofChars_lexeme_mark number offset l),
      foldl_track_plain (plain_of_not_isStructural (not_isStructural_scanBody number offset l))]
    rfl
  · rw [scanLine_of_invisible hl]
    rfl

theorem throughout_scanLine {measure : Indent → Nat} {levels : List Indent} {l : Text.Line}
    (hlevels : Steep measure levels) (hl : Deepens measure levels l) (number offset : Nat) :
    Throughout (IsSteep measure) (levels ++ [Indent.base])
      (scanLine levels number offset l).2.tokens := by
  by_cases hvisible : l.Visible
  · have hlexeme := ofChars_lexeme_mark number offset l
    have hshift : Throughout (IsSteep measure) _
        (shift levels l.indent (mark number offset l)).2.tokens :=
      throughout_shift rfl hlexeme hlevels (hl hvisible)
    rw [scanLine_of_visible hvisible, Scan.tokens_append, Scan.tokens_append, List.append_assoc,
      throughout_append]
    refine ⟨hshift, throughout_plain hshift.finish ?_⟩
    intro t ht
    rcases List.mem_append.1 ht with ht | ht
    · exact plain_of_not_isStructural (not_isStructural_scanBody number offset l) t ht
    · rw [List.mem_singleton.1 ht]
      exact ⟨nofun, nofun⟩
  · rw [scanLine_of_invisible hvisible]
    exact throughout_plain hlevels.isSteep (by simp)

theorem Steep.scanLine {measure : Indent → Nat} {levels : List Indent} {l : Text.Line}
    (hlevels : Steep measure levels) (hl : Deepens measure levels l) (number offset : Nat) :
    Steep measure (scanLine levels number offset l).1 := by
  have h := (throughout_scanLine hlevels hl number offset).finish
  rw [foldl_track_scanLine] at h
  exact .of_isSteep h

/-! ### All lines -/

/-- The tokens of some lines tell the stack after them. -/
theorem foldl_track_scanLines (levels : List Indent) (number offset : Nat) (ls : List Text.Line) :
    (scanLines levels number offset ls).2.tokens.foldl track (levels ++ [Indent.base]) =
      (scanLines levels number offset ls).1 ++ [Indent.base] := by
  induction ls generalizing levels number offset with
  | nil => rfl
  | cons l ls ih =>
    rw [scanLines_cons, Scan.tokens_append, List.foldl_append, foldl_track_scanLine, ih]

/-- A measure orders levels while only faults of a kind `Q` occur: a line without other faults opens
no level unless it measures more than those open before. -/
def Orders (measure : Indent → Nat) (Q : Diagnostic → Prop) : Prop :=
  ∀ levels number offset l, (∀ d ∈ (scanLine levels number offset l).2.errors, Q d) →
    Deepens measure levels l

theorem orders_column : Orders Indent.column fun _ => True := fun _ _ _ _ _ _ h => h

/-- The other measure orders levels unless a line is reported as inconsistent. -/
theorem orders_alternate :
    Orders Indent.alternate fun d => d.cause ≠ .lexical .inconsistentIndentation := by
  intro levels number offset l herrors hvisible hcolumn
  by_contra halternate
  refine herrors (fault (mark number offset l) .inconsistentIndentation) ?_ rfl
  rw [scanLine_of_visible hvisible, shift, if_neg (Nat.ne_of_gt hcolumn), if_pos hcolumn]
  simp only [Scan.errors_append, deepen, if_pos (Nat.le_of_not_lt halternate)]
  simp

section Run

variable {measure : Indent → Nat} {Q : Diagnostic → Prop} (horders : Orders measure Q)
include horders

/-- Lines without other faults keep the stack steep at every token. The induction is on the lines, one
after the other, with the levels open before each. -/
theorem throughout_scanLines {levels : List Indent} (hlevels : Steep measure levels)
    (number offset : Nat) (ls : List Text.Line)
    (herrors : ∀ d ∈ (scanLines levels number offset ls).2.errors, Q d) :
    Throughout (IsSteep measure) (levels ++ [Indent.base])
      (scanLines levels number offset ls).2.tokens := by
  induction ls generalizing levels number offset with
  | nil => exact throughout_plain hlevels.isSteep (by simp [scanLines])
  | cons l ls ih =>
    rw [scanLines_cons] at herrors ⊢
    simp only [Scan.errors_append, List.forall_mem_append] at herrors
    have hline := horders levels (number + 1) offset l herrors.1
    rw [Scan.tokens_append, throughout_append, foldl_track_scanLine]
    exact ⟨throughout_scanLine hlevels hline _ _,
      ih (hlevels.scanLine hline _ _) _ _ herrors.2⟩

/-- So does the whole text, to its end. -/
theorem throughout_scan {cs : List Char} (herrors : ∀ d ∈ (scan cs).errors, Q d) :
    Throughout (IsSteep measure) [Indent.base] (scan cs).tokens := by
  rw [scan_eq_close] at herrors ⊢
  simp only [Scan.errors_append, List.forall_mem_append] at herrors
  have hlines := throughout_scanLines horders steep_nil 0 0 (Text.lines cs) herrors.1
  have hstack := foldl_track_scanLines [] 0 0 (Text.lines cs)
  generalize scanLines [] 0 0 (Text.lines cs) = front at hlines hstack
  rw [List.nil_append] at hlines hstack
  rw [Scan.tokens_append, throughout_append, hstack]
  have hsteep : Steep measure front.1 := .of_isSteep (hstack ▸ hlines.finish)
  refine ⟨hlines, throughout_append.2 ⟨throughout_replicate rfl fun k hk => ?_, ?_⟩⟩
  · rw [List.drop_append_of_le_length hk]
    exact (hsteep.of_suffix (List.drop_suffix k _)).isSteep
  · rw [foldl_track_replicate rfl, List.drop_left]
    refine throughout_plain (show Steep measure [] from steep_nil).isSteep fun t ht => ?_
    rw [List.mem_singleton.1 ht]
    exact ⟨nofun, nofun⟩

end Run

/-- Whatever a text is like, its tokens end with the one end token, and its indents and dedents match
up. The stack that scanning keeps from line to line is the one that the tokens made so far tell: with
the base at its bottom, with columns that increase from there, and as high as levels are open. If no
line is reported as inconsistent, the columns with a tab counted as one increase too. -/
theorem well_bracketed (cs : List Char) :
    (∃ ts last, (scan cs).tokens = ts ++ [last] ∧ last.kind = .endOfFile ∧
        ∀ t ∈ ts, t.kind ≠ .endOfFile) ∧
      Balanced (scan cs).tokens ∧
      (∀ before after, Text.lines cs = before ++ after →
        scan cs = (scanLines [] 0 0 before).2 ++
            scanFrom (scanLines [] 0 0 before).1 before.length (linesSize before)
              (lastEnded true before) after ∧
          (scanLines [] 0 0 before).1 ++ [Indent.base] =
            stackAfter (scanLines [] 0 0 before).2.tokens) ∧
      ∀ emitted, emitted <+: (scan cs).tokens →
        (stackAfter emitted).getLast? = some Indent.base ∧
        (stackAfter emitted).Pairwise (fun inner outer => outer.column < inner.column) ∧
        (stackAfter emitted).length + dedents emitted = indents emitted + 1 ∧
        ((∀ d ∈ (scan cs).errors, d.cause ≠ .lexical .inconsistentIndentation) →
          (stackAfter emitted).Pairwise fun inner outer => outer.alternate < inner.alternate) := by
  refine ⟨exists_tokens_scanFrom [] 0 0 true (Text.lines cs), balanced_scan cs, ?_, ?_⟩
  · intro before after hlines
    have hsplit := scanFrom_lines [] 0 0 true before after
    rw [Nat.zero_add, Nat.zero_add, ← hlines] at hsplit
    exact ⟨hsplit, (foldl_track_scanLines [] 0 0 before).symm⟩
  · intro emitted hemitted
    have hcolumns : Throughout (IsSteep Indent.column) [Indent.base] (scan cs).tokens :=
      throughout_scan orders_column fun _ _ => trivial
    obtain ⟨levels, hstack, hsteep⟩ := hcolumns emitted hemitted
    have hbase : Throughout (· ≠ []) [Indent.base] emitted := by
      intro us hus
      obtain ⟨levels, hus, -⟩ := hcolumns us (hus.trans hemitted)
      simp [hus]
    have hheight := length_foldl_track hbase
    rw [stackAfter]
    refine ⟨?_, ?_, ?_, fun herrors => ?_⟩
    · rw [hstack, List.getLast?_concat]
    · rw [hstack]
      exact hsteep
    · rw [hheight, Nat.add_comm]
      rfl
    · obtain ⟨levels, hstack, hsteep⟩ := throughout_scan orders_alternate herrors emitted hemitted
      rw [hstack]
      exact hsteep

end Offside.Layout
