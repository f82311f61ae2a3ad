import Mathlib.Data.Finset.Sort
import Mathlib.Data.Fintype.Basic
import Offside.Proofs.Levels
import Offside.Proofs.Pieces

/-!
# The offside rule

In a text without faults the levels open at a line are told by the lines so far alone: a column is
open if some line starts there and no line since has started to the left of it. Tokens follow the
lines one by one, and each line first opens or closes what it takes to have the right levels open.

* `Layout.openColumns`: the columns that are open after lines with given columns;
* `Layout.Row`: the tokens of a visible line;
* `Layout.Opens`: a stack of levels as the columns of the lines so far want it;
* `Layout.offside_rule`: the tokens and the levels of every text without faults.
-/

namespace Offside.Layout

open Grammar (indents dedents)
open Text (Line)

/-! ### Open columns -/

/-- The columns that are open after lines with given columns: those to the right of the margin at
which a line starts such that it and all further lines start there or to the right of it. -/
def openColumns (columns : List Nat) : Finset Nat :=
  (Finset.univ.filter fun j : Fin columns.length =>
    0 < columns[j] ∧ ∀ k, j ≤ k → columns[j] ≤ columns[k]).image fun j => columns[j]

theorem mem_openColumns {columns : List Nat} {c : Nat} :
    c ∈ openColumns columns ↔
      0 < c ∧ ∃ before after, columns = before ++ c :: after ∧ ∀ d ∈ after, c ≤ d := by
  simp only [openColumns, Finset.mem_image, Finset.mem_filter, Finset.mem_univ, true_and]
  constructor
  · rintro ⟨j, ⟨hpos, hle⟩, rfl⟩
    refine ⟨hpos, columns.take j, columns.drop (j + 1), ?_, fun d hd => ?_⟩
    · simp
    · obtain ⟨k, hk, rfl⟩ := List.mem_drop_iff_getElem.1 hd
      have hlater := hle ⟨j + 1 + k, by omega⟩ (by simp only [Fin.le_def]; omega)
      exact hlater
  · rintro ⟨hpos, before, after, rfl, hle⟩
    refine ⟨⟨before.length, by simp⟩, ⟨by simpa using hpos, fun k hk => ?_⟩, by simp⟩
    have hmem : (before ++ c :: after)[k] ∈ c :: after := by
      have hk : before.length ≤ k := hk
      rw [Fin.getElem_fin, List.getElem_append_right hk]
      exact List.getElem_mem _
    rcases List.mem_cons.1 hmem with h | h
    · simp [h]
    · simpa using hle _ h

/-- One more line. -/
theorem mem_openColumns_concat {columns : List Nat} {c d : Nat} :
    c ∈ openColumns (columns ++ [d]) ↔ c ≤ d ∧ (c ∈ openColumns columns ∨ c = d ∧ 0 < d) := by
  rw [mem_openColumns, mem_openColumns]
  constructor
  · rintro ⟨hpos, before, after, hsplit, hle⟩
    rcases List.eq_nil_or_concat' after with rfl | ⟨after, e, rfl⟩
    · obtain ⟨-, ⟨⟩⟩ := List.append_inj' hsplit rfl
      exact ⟨Nat.le_refl _, .inr ⟨rfl, hpos⟩⟩
    · rw [← List.cons_append, ← List.append_assoc] at hsplit
      obtain ⟨rfl, ⟨⟩⟩ := List.append_inj' hsplit rfl
      exact ⟨hle d (by simp), .inl ⟨hpos, before, after, rfl, fun x hx => hle x (by simp [hx])⟩⟩
  · rintro ⟨hle, ⟨hpos, before, after, rfl, hafter⟩ | ⟨rfl, hpos⟩⟩
    · refine ⟨hpos, before, after ++ [d], by simp, fun x hx => ?_⟩
      rcases List.mem_append.1 hx with hx | hx
      · exact hafter x hx
      · rwa [List.mem_singleton.1 hx]
    · exact ⟨hpos, columns, [], rfl, by simp⟩

/-! ### Levels and open columns -/

/-- The levels that are open after lines with given columns. There are never more than a hundred. -/
structure Opens (columns : List Nat) (levels : List Indent) : Prop where
  steep : Steep Indent.column levels
  columns : (levels.map Indent.column).toFinset = openColumns columns
  length : levels.length ≤ maxDepth

namespace Opens

variable {columns : List Nat} {levels : List Indent}

theorem nil : Opens [] [] := ⟨steep_nil, rfl, Nat.zero_le _⟩

theorem mem_iff (h : Opens columns levels) (c : Nat) :
    c ∈ levels.map Indent.column ↔ c ∈ openColumns columns := by
  rw [← h.columns, List.mem_toFinset]

theorem pairwise (h : Opens columns levels) : (levels.map Indent.column).Pairwise (· > ·) :=
  List.pairwise_map.2 (h.steep.sublist (List.sublist_append_left _ _))

/-- The levels in increasing order are the open columns. -/
theorem reverse_eq_sort (h : Opens columns levels) :
    (levels.map Indent.column).reverse = (openColumns columns).sort (· ≤ ·) := by
  have hsorted : (levels.map Indent.column).reverse.Pairwise (· < ·) :=
    List.pairwise_reverse.2 h.pairwise
  have hsort := (List.toFinset_sort (· ≤ ·) (hsorted.imp Nat.ne_of_lt)).2
    (hsorted.imp Nat.le_of_lt)
  rw [List.toFinset_reverse, h.columns] at hsort
  exact hsort.symm

theorem card (h : Opens columns levels) : (openColumns columns).card = levels.length := by
  rw [← Finset.length_sort (· ≤ ·), ← h.reverse_eq_sort, List.length_reverse, List.length_map]

/-- The innermost level, unless it is the base, is an open column. -/
theorem top_mem (h : 0 < (top levels).column) : (top levels).column ∈ levels.map Indent.column := by
  cases levels with
  | nil => exact absurd h (Nat.lt_irrefl 0)
  | cons l levels => exact List.mem_cons_self

theorem le_top (h : Steep Indent.column levels) {c : Nat} (hc : c ∈ levels.map Indent.column) :
    c ≤ (top levels).column := by
  obtain ⟨l, hl, rfl⟩ := List.mem_map.1 hc
  exact h.le_top (List.mem_append_left _ hl)

end Opens

/-- The levels kept under a line are those that do not lie to the right of it. -/
theorem mem_keep {levels : List Indent} (h : Steep Indent.column levels) (column c : Nat) :
    c ∈ (keep levels column).map Indent.column ↔ c ∈ levels.map Indent.column ∧ c ≤ column := by
  induction levels with
  | nil => simp [keep]
  | cons l levels ih =>
    obtain ⟨htop, hlevels⟩ := steep_cons.1 h
    unfold keep at ih ⊢
    by_cases hl : column < l.column
    · rw [List.dropWhile_cons_of_pos (by simpa using hl), ih hlevels, List.map_cons, List.mem_cons]
      constructor
      · rintro ⟨hmem, hle⟩
        exact ⟨.inr hmem, hle⟩
      · rintro ⟨rfl | hmem, hle⟩
        · exact absurd hle (Nat.not_le_of_lt hl)
        · exact ⟨hmem, hle⟩
    · rw [List.dropWhile_cons_of_neg (by simpa using hl)]
      refine ⟨fun hmem => ⟨hmem, ?_⟩, And.left⟩
      exact Nat.le_trans (Opens.le_top h hmem) (Nat.le_of_not_lt hl)

/-- A line without a fault in its indentation opens and closes the levels that its column wants. -/
theorem Opens.shift {columns : List Nat} {levels : List Indent} (h : Opens columns levels)
    (current : Indent) (mark : Token) (herrors : (shift levels current mark).2.errors = []) :
    Opens (columns ++ [current.column]) (shift levels current mark).1 := by
  unfold Layout.shift at herrors ⊢
  split at herrors
  · next hequal =>
    rw [if_pos hequal]
    refine ⟨h.steep, ?_, h.length⟩
    ext c
    rw [List.mem_toFinset, mem_openColumns_concat, ← h.mem_iff, hequal]
    constructor
    · exact fun hmem => ⟨le_top h.steep hmem, .inl hmem⟩
    · rintro ⟨-, hmem | ⟨rfl, hpos⟩⟩
      · exact hmem
      · exact top_mem hpos
  · next hequal =>
    rw [if_neg hequal]
    split at herrors
    · next hdeeper =>
      rw [if_pos hdeeper]
      have hroom : levels.length < maxDepth := by
        by_contra hfull
        simp [deepen, Nat.le_of_not_lt hfull] at herrors
      refine ⟨steep_cons.2 ⟨hdeeper, h.steep⟩, ?_, hroom⟩
      ext c
      rw [List.mem_toFinset, mem_openColumns_concat, ← h.mem_iff, List.map_cons, List.mem_cons]
      constructor
      · rintro (rfl | hmem)
        · exact ⟨Nat.le_refl _, .inr ⟨rfl, Nat.zero_lt_of_lt hdeeper⟩⟩
        · exact ⟨Nat.le_trans (le_top h.steep hmem) (Nat.le_of_lt hdeeper), .inl hmem⟩
      · rintro ⟨-, hmem | ⟨rfl, -⟩⟩
        · exact .inr hmem
        · exact .inl rfl
    · next hdeeper =>
      rw [if_neg hdeeper]
      have hkept : Steep Indent.column (keep levels current.column) :=
        h.steep.of_suffix (keep_suffix levels _)
      have hlevel : current.column = (top (keep levels current.column)).column := by
        by_contra hunmatched
        simp [shrink, hunmatched] at herrors
      refine ⟨hkept, ?_, Nat.le_trans (keep_suffix levels _).length_le h.length⟩
      ext c
      rw [List.mem_toFinset, mem_openColumns_concat, ← h.mem_iff, mem_keep h.steep]
      constructor
      · exact fun hmem => ⟨hmem.2, .inl hmem.1⟩
      · rintro ⟨hle, hmem | ⟨rfl, hpos⟩⟩
        · exact ⟨hmem, hle⟩
        · rw [← mem_keep h.steep]
          rw [hlevel] at hpos
          have hmem := top_mem hpos
          rwa [← hlevel] at hmem

/-! ### Rows of tokens -/

/-- A visible line with its tokens: those that its indentation brings about, those of what is on it,
and the one that ends it. -/
structure Row where
  line : Line
  number : Nat
  structural : List Token
  text : List Token
  ending : Token

namespace Row

/-- The tokens of a line in order. -/
def tokens (r : Row) : List Token := r.structural ++ r.text ++ [r.ending]

/-- The column at which a line starts. -/
def column (r : Row) : Nat := r.line.indent.column

/-- The tokens of a line are as layout wants them: one indent, or some dedents or none, then one or
more tokens for what is on the line, then its end. -/
structure Regular (r : Row) : Prop where
  structural : (∃ t, r.structural = [t] ∧ t.kind = .indent) ∨ ∀ t ∈ r.structural, t.kind = .dedent
  text_ne_nil : r.text ≠ []
  text : ∀ t ∈ r.text, t.kind.isStructural = false
  ending : r.ending.kind = .newline
  number : ∀ t ∈ r.tokens, t.line = r.number

end Row

/-- The tokens of a visible line. -/
def rowOf (levels : List Indent) (number offset : Nat) (l : Line) : Row :=
  { line := l, number := number,
    structural := (shift levels l.indent (mark number offset l)).2.tokens,
    text := (scanBody number offset l).tokens, ending := ending number offset l }

/-- The rows of the lines after the first `number`. -/
def rows (levels : List Indent) (number offset : Nat) : List Line → List Row
  | [] => []
  | l :: ls =>
    (if l.Visible then [rowOf levels (number + 1) offset l] else []) ++
      rows (scanLine levels (number + 1) offset l).1 (number + 1) (offset + l.size) ls

/-- The visible lines of a text with their numbers. -/
def visibleLines (cs : List Char) : List (Line × Nat) :=
  ((Text.lines cs).zipIdx 1).filter fun p => p.1.Visible

theorem tokens_scanLine_of_visible {l : Line} (h : l.Visible) (levels : List Indent)
    (number offset : Nat) :
    (scanLine levels number offset l).2.tokens = (rowOf levels number offset l).tokens := by
  rw [scanLine_of_visible h]
  rfl

theorem tokens_scanLines (levels : List Indent) (number offset : Nat) (ls : List Line) :
    (scanLines levels number offset ls).2.tokens =
      (rows levels number offset ls).flatMap Row.tokens := by
  induction ls generalizing levels number offset with
  | nil => rfl
  | cons l ls ih =>
    rw [scanLines_cons, rows, Scan.tokens_append, ih, List.flatMap_append]
    by_cases hl : l.Visible
    · rw [if_pos hl, tokens_scanLine_of_visible hl, List.flatMap_singleton]
    · rw [if_neg hl, scanLine_of_invisible hl]
      rfl

theorem map_rows (levels : List Indent) (number offset : Nat) (ls : List Line) :
    (rows levels number offset ls).map (fun r => (r.line, r.number)) =
      (ls.zipIdx (number + 1)).filter fun p => p.1.Visible := by
  induction ls generalizing levels number offset with
  | nil => rfl
  | cons l ls ih =>
    rw [rows, List.map_append, ih, List.zipIdx_cons, List.filter_cons]
    by_cases hl : l.Visible
    · simp [hl, rowOf]
    · simp [hl]

/-! ### Tokens on a line -/

theorem structural_shift (levels : List Indent) (current : Indent) {mark : Token}
    (hmark : mark.kind = .indent) :
    (∃ t, (shift levels current mark).2.tokens = [t] ∧ t.kind = .indent) ∨
      ∀ t ∈ (shift levels current mark).2.tokens, t.kind = .dedent := by
  unfold shift
  split
  · exact .inr (by simp)
  · split
    · exact .inl ⟨mark, rfl, hmark⟩
    · refine .inr fun t ht => ?_
      rw [(List.mem_replicate.1 ht).2]

theorem line_shift (levels : List Indent) (current : Indent) (mark : Token) :
    ∀ t ∈ (shift levels current mark).2.tokens, t.line = mark.line := by
  unfold shift
  split
  · simp
  · split
    · simp [deepen]
    · intro t ht
      rw [(List.mem_replicate.1 ht).2]

theorem line_scanPieces (number offset : Nat) (pieces : List Piece) :
    ∀ t ∈ (scanPieces number offset pieces).tokens, t.line = number := by
  induction pieces generalizing offset with
  | nil => simp [scanPieces]
  | cons p pieces ih =>
    have hrest := ih (offset + Text.size p.chars)
    unfold scanPieces
    rcases p.cls with _ | _ | kind | _ | _
    · exact hrest
    · exact hrest
    · exact List.forall_mem_cons.2 ⟨rfl, hrest⟩
    · exact hrest
    · exact hrest

/-- A visible line without carriage returns and faults has something on it. -/
theorem tokens_scanBody_ne_nil {l : Line} (hl : l.Visible) (hreturn : '\r' ∉ l.text)
    {number offset : Nat} (herrors : (scanBody number offset l).errors = []) :
    (scanBody number offset l).tokens ≠ [] := by
  have hinvisible := Line.visible_iff.1 hl
  unfold scanBody at herrors ⊢
  cases hbody : l.body with
  | nil =>
    rw [hbody] at hinvisible
    cases hinvisible
  | cons c rest =>
    have hpart : Indent.isPart c = false := by
      have := List.head?_dropWhile_not Indent.isPart l.text
      rw [show l.text.dropWhile Indent.isPart = c :: rest from hbody] at this
      simpa using this
    have hmem : c ∈ l.text := by
      rw [← l.blanks_append_body, hbody]
      simp
    have hgap : Piece.isGap c = false := by
      simp only [Indent.isPart, Bool.or_eq_false_iff, decide_eq_false_iff_not] at hpart
      simp only [Piece.isGap, Bool.or_eq_false_iff, decide_eq_false_iff_not]
      exact ⟨⟨⟨hpart.1.1, hpart.1.2⟩, fun h => hreturn (h ▸ hmem)⟩, hpart.2⟩
    rw [hbody] at hinvisible herrors
    rw [Piece.cut_cons, scanPieces] at herrors ⊢
    have hshape := Piece.shape_classify c rest
    -- only a token neither is a fault nor leaves the line blank or with a comment alone
    generalize Piece.classify c rest = answer at hshape herrors ⊢
    obtain ⟨cls, length⟩ := answer
    cases hshape with
    | gap h => exact absurd (hgap.symm.trans h) (by decide)
    | comment hc hrest =>
      obtain ⟨tail, rfl⟩ := List.head?_eq_some_iff.1 hrest
      subst hc
      rw [isInvisible, Bool.or_eq_false_iff] at hinvisible
      exact absurd hinvisible.2 (by simp)
    | text _ _ => exact List.cons_ne_nil _ _
    | openText _ _ => cases herrors
    | plain hplain _ _ _ _ =>
      cases cls with
      | token kind => exact List.cons_ne_nil _ _
      | stray => cases herrors
      | _ => cases hplain

theorem regular_rowOf {l : Line} (hl : l.Visible) (hreturn : '\r' ∉ l.text) (levels : List Indent)
    {number offset : Nat} (herrors : (scanBody number offset l).errors = []) :
    (rowOf levels number offset l).Regular where
  structural := structural_shift levels l.indent rfl
  text_ne_nil := tokens_scanBody_ne_nil hl hreturn herrors
  text := not_isStructural_scanBody number offset l
  ending := rfl
  number t ht := by
    rcases List.mem_append.1 ht with ht | ht
    · rcases List.mem_append.1 ht with ht | ht
      · exact line_shift levels l.indent (mark number offset l) t ht
      · exact line_scanPieces _ _ _ t ht
    · rw [List.mem_singleton.1 ht]
      rfl

theorem regular_of_mem_rows {levels : List Indent} {number offset : Nat} {ls : List Line}
    (hreturn : ∀ l ∈ ls, '\r' ∉ l.text)
    (herrors : (scanLines levels number offset ls).2.errors = []) :
    ∀ r ∈ rows levels number offset ls, r.Regular := by
  induction ls generalizing levels number offset with
  | nil => simp [rows]
  | cons l ls ih =>
    obtain ⟨hl, hls⟩ := List.forall_mem_cons.1 hreturn
    rw [scanLines_cons, Scan.errors_append, List.append_eq_nil_iff] at herrors
    rw [rows, List.forall_mem_append]
    refine ⟨?_, ih hls herrors.2⟩
    split
    · next hvisible =>
      have hline := herrors.1
      rw [scanLine_of_visible hvisible] at hline
      simp only [Scan.errors_append, List.append_eq_nil_iff] at hline
      simpa using regular_rowOf hvisible hl levels hline.1.2
    · simp

/-! ### Levels of the rows -/

/-- After the structural tokens of a row, the levels that are open are those that the columns of the
rows up to it want. The induction is on the lines, with the columns and levels so far. -/
theorem opens_of_rows {columns : List Nat} {levels : List Indent} (h : Opens columns levels)
    (number offset : Nat) (ls : List Line)
    (herrors : (scanLines levels number offset ls).2.errors = []) {before after : List Row}
    {row : Row} (hrows : rows levels number offset ls = before ++ row :: after) :
    ∃ n, row.number = number + n ∧
      Opens (columns ++ (before ++ [row]).map Row.column)
        (scanLines levels number offset (ls.take n)).1 ∧
      depthAfter levels.length (before.flatMap Row.tokens ++ row.structural) =
        some (scanLines levels number offset (ls.take n)).1.length := by
  induction ls generalizing columns levels number offset before with
  | nil => simp [rows] at hrows
  | cons l ls ih =>
    rw [scanLines_cons, Scan.errors_append, List.append_eq_nil_iff] at herrors
    obtain ⟨hline, hlines⟩ := herrors
    rw [rows] at hrows
    by_cases hl : l.Visible
    · have hshift : (shift levels l.indent (mark (number + 1) offset l)).2.errors = [] := by
        rw [scanLine_of_visible hl] at hline
        simp only [Scan.errors_append, List.append_eq_nil_iff] at hline
        exact hline.1.1
      have hopens := h.shift _ _ hshift
      have hlevels : (scanLine levels (number + 1) offset l).1 =
          (shift levels l.indent (mark (number + 1) offset l)).1 := by
        rw [scanLine_of_visible hl]
      rw [if_pos hl, List.singleton_append] at hrows
      cases before with
      | nil =>
        obtain ⟨rfl, -⟩ := List.cons.inj hrows
        refine ⟨1, rfl, ?_, ?_⟩
        · simpa [scanLines_cons, scanLines, hlevels, Row.column, rowOf] using hopens
        · simpa [scanLines_cons, scanLines, hlevels, rowOf] using
            depthAfter_shift levels l.indent (show (mark (number + 1) offset l).kind = .indent from rfl)
      | cons r before =>
        obtain ⟨rfl, hlater⟩ := List.cons.inj hrows
        rw [← hlevels] at hopens
        obtain ⟨n, hnumber, hlater, hdepth⟩ := ih hopens _ _ hlines hlater
        refine ⟨n + 1, by omega, ?_, ?_⟩
        · simpa [scanLines_cons, Row.column, rowOf] using hlater
        · rw [List.flatMap_cons, List.append_assoc, depthAfter_append,
            ← tokens_scanLine_of_visible hl, depthAfter_scanLine, Option.bind_some, hdepth]
          rfl
    · rw [scanLine_of_invisible hl] at hlines hrows
      rw [if_neg hl, List.nil_append] at hrows
      obtain ⟨n, hnumber, hlater, hdepth⟩ := ih h _ _ hlines hrows
      refine ⟨n + 1, by omega, ?_, ?_⟩
      · rw [List.take_succ_cons, scanLines_cons, scanLine_of_invisible hl]
        exact hlater
      · rw [List.take_succ_cons, scanLines_cons, scanLine_of_invisible hl]
        exact hdepth

/-- In a text without carriage returns and faults the tokens are those of the visible lines in order,
each line with one indent, some dedents or none, then its own tokens and its end; closing dedents and
the end token come last. After the structural tokens of a line as many levels are open as columns are,
never more than a hundred, and the levels, from the outermost on, are these columns in increasing
order. -/
theorem offside_rule {cs : List Char} (hreturn : '\r' ∉ cs) (herrors : (scan cs).errors = []) :
    ∃ (rows : List Row) (closing : List Token) (last : Token),
      rows.map (fun r => (r.line, r.number)) = visibleLines cs ∧
      (scan cs).tokens = rows.flatMap Row.tokens ++ (closing ++ [last]) ∧
      (∀ r ∈ rows, r.Regular) ∧ (∀ t ∈ closing, t.kind = .dedent) ∧ last.kind = .endOfFile ∧
      ∀ before row after, rows = before ++ row :: after →
        let emitted := before.flatMap Row.tokens ++ row.structural
        let columns := openColumns ((before ++ [row]).map Row.column)
        let levels := (scanLines [] 0 0 ((Text.lines cs).take row.number)).1
        indents emitted = dedents emitted + columns.card ∧
          (levels.map Indent.column).reverse = columns.sort (· ≤ ·) ∧ columns.card ≤ 100 := by
  have hlines : (scanLines [] 0 0 (Text.lines cs)).2.errors = [] := by
    rw [scan_eq_close, Scan.errors_append, List.append_eq_nil_iff] at herrors
    exact herrors.1
  have hreturns : ∀ l ∈ Text.lines cs, '\r' ∉ l.text := by
    intro l hl hmem
    refine hreturn ?_
    rw [← Text.flatMap_chars_lines cs, List.mem_flatMap]
    exact ⟨l, hl, List.mem_append_left _ hmem⟩
  obtain ⟨closing, last, hclosing, hlast, htokens⟩ :=
    exists_tokens_close (scanLines [] 0 0 (Text.lines cs)).1 (Text.lines cs).length
      (linesSize (Text.lines cs)) (lastEnded true (Text.lines cs))
  refine ⟨rows [] 0 0 (Text.lines cs),
    List.replicate (scanLines [] 0 0 (Text.lines cs)).1.length closing, last, map_rows [] 0 0 _, ?_,
    regular_of_mem_rows hreturns hlines, fun t ht => ?_, hlast, ?_⟩
  · rw [scan_eq_close, Scan.tokens_append, tokens_scanLines, htokens]
  · rw [(List.mem_replicate.1 ht).2, hclosing]
  · intro before row after hrows
    obtain ⟨n, hnumber, hopens, hdepth⟩ := opens_of_rows .nil 0 0 _ hlines hrows
    obtain rfl : row.number = n := by omega
    rw [List.nil_append] at hopens
    have hcount := add_indents_of_depthAfter hdepth
    refine ⟨?_, hopens.reverse_eq_sort, hopens.card ▸ hopens.length⟩
    rw [List.length_nil, Nat.zero_add] at hcount
    rw [hcount, hopens.card, Nat.add_comm]

/-- Two levels by tabs that close at a form feed, with a blank line and a comment between them. -/
theorem offside_rule_nested :
    let text := "if a\n\tif b\n\n // none\n\t\tf()\n\x0cg()".toList
    '\r' ∉ text ∧ (scan text).errors = [] ∧ (visibleLines text).map (·.2) = [1, 2, 5, 6] ∧
      ∃ (rows : List Row) (closing : List Token) (last : Token),
        rows.map (fun r => (r.line, r.number)) = visibleLines text ∧
        (scan text).tokens = rows.flatMap Row.tokens ++ (closing ++ [last]) ∧
        (∀ r ∈ rows, r.Regular) ∧
        ∀ before row after, rows = before ++ row :: after →
          ((scanLines [] 0 0 ((Text.lines text).take row.number)).1.map Indent.column).reverse =
            (openColumns ((before ++ [row]).map Row.column)).sort (· ≤ ·) := by
  intro text
  have hreturn : '\r' ∉ text := by decide
  have herrors : (scan text).errors = [] := by decide
  obtain ⟨rows, closing, last, hlines, htokens, hregular, -, -, hlevels⟩ :=
    offside_rule hreturn herrors
  exact ⟨hreturn, herrors, by decide, rows, closing, last, hlines, htokens, hregular,
    fun before row after h => (hlevels before row after h).2.1⟩

end Offside.Layout
