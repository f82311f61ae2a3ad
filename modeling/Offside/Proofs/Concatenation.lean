import Offside.Proofs.Grammar.Relabeling
import Offside.Proofs.Lines
import Offside.Proofs.Relocation
import Offside.Proofs.Transport

/-!
# Texts one after another

A program in front of another one is read as the statements of both. The first text only moves the
tokens of the second, with one exception: the levels that the first leaves open are closed by the
first visible line of the second instead of the end of the text. The tokens that close them stand in
another place, and no tree keeps them.

* `Scan.move`: tokens and faults, moved within a text;
* `Layout.scanLines_move`: scanning does not depend on the position of lines;
* `Layout.scanLines_resume`: lines that start afresh, after lines that leave levels open;
* `Grammar.read_append`: the program of two texts, one after the other;
* `Scope.ofStmts_move`: the analysis of scopes does not depend on the position of code;
* `Session.compile_append`: two texts that compile one after the other compile as one.
-/

namespace Offside

namespace Text

/-! ### Lines -/

theorem linesFrom_append_newline (seen cs ds : List Char) :
    linesFrom seen (cs ++ '\n' :: ds) = linesFrom seen (cs ++ ['\n']) ++ lines ds := by
  induction cs generalizing seen with
  | nil => simp [linesFrom, lines]
  | cons c cs ih =>
    rw [List.cons_append, List.cons_append, linesFrom, linesFrom]
    split
    · rw [ih, List.cons_append]
    · rw [ih]

theorem ended_of_mem_linesFrom {seen cs : List Char} :
    ∀ l ∈ linesFrom seen (cs ++ ['\n']), l.ended = true := by
  induction cs generalizing seen with
  | nil => simp [linesFrom]
  | cons c cs ih =>
    rw [List.cons_append, linesFrom]
    split
    · exact List.forall_mem_cons.2 ⟨rfl, ih⟩
    · exact ih

theorem eq_append_newline {cs : List Char} (h : endsWithNewline cs = true) :
    ∃ ds, cs = ds ++ ['\n'] := by
  obtain ⟨ds, hds⟩ := List.getLast?_eq_some_iff.1 (beq_iff_eq.1 h)
  exact ⟨ds, hds⟩

/-- A text that ends with a line feed has its lines to itself. -/
theorem lines_append {cs : List Char} (h : endsWithNewline cs = true) (ds : List Char) :
    lines (cs ++ ds) = lines cs ++ lines ds := by
  obtain ⟨cs, rfl⟩ := eq_append_newline h
  rw [List.append_assoc]
  exact linesFrom_append_newline [] cs ds

theorem ended_of_mem_lines {cs : List Char} (h : endsWithNewline cs = true) :
    ∀ l ∈ lines cs, l.ended = true := by
  obtain ⟨cs, rfl⟩ := eq_append_newline h
  exact ended_of_mem_linesFrom

theorem not_mem_normalizeNewlines (cs : List Char) : '\r' ∉ normalizeNewlines cs := by
  unfold normalizeNewlines
  split
  · simp only [feedReturns, List.mem_map, not_exists, not_and]
    intro c _
    split
    · decide
    · assumption
  · rename_i h
    simpa [hasReturn] using h

theorem normalizeNewlines_of_not_mem {cs : List Char} (h : '\r' ∉ cs) :
    normalizeNewlines cs = cs := by
  have hnone : hasReturn cs = false := by simpa [hasReturn] using h
  rw [normalizeNewlines, hnone]
  rfl

/-- Texts with line feeds only, one after the other. -/
theorem normalizeNewlines_append {as bs : List Char} (has : normalizeNewlines as = as)
    (hbs : normalizeNewlines bs = bs) : normalizeNewlines (as ++ bs) = as ++ bs := by
  have ha := not_mem_normalizeNewlines as
  have hb := not_mem_normalizeNewlines bs
  rw [has] at ha
  rw [hbs] at hb
  exact normalizeNewlines_of_not_mem (by simp [ha, hb])

end Text

/-! ### Tokens and faults, moved -/

/-- Moving everything as far is a transport. -/
def Shift.transport (σ : Shift) : Transport where
  token := Token.shift σ
  span := (·.shift σ)
  diagnostic := (·.shift σ)
  kind_token _ := rfl
  lexeme_token _ := rfl
  literal_token _ := rfl
  span_token _ := rfl
  diagnose_token _ _ := rfl
  inFile_diagnostic _ _ := rfl

/-- Tokens and faults, moved within a text. -/
def Scan.move (σ : Shift) (s : Scan) : Scan :=
  ⟨s.tokens.map (Token.shift σ), s.errors.map (·.shift σ)⟩

theorem Scan.move_append (σ : Shift) (s s' : Scan) : (s ++ s').move σ = s.move σ ++ s'.move σ :=
  Scan.transport_append σ.transport s s'

namespace Layout

variable (σ : Shift)

theorem scanPieces_move (number offset : Nat) (pieces : List Piece) :
    scanPieces (number + σ.lines) (offset + σ.bytes) pieces =
      (scanPieces number offset pieces).move σ := by
  induction pieces generalizing offset with
  | nil => rfl
  | cons piece pieces ih =>
    have hnext := ih (offset + Text.size piece.chars)
    rw [Nat.add_right_comm] at hnext
    rw [scanPieces, scanPieces]
    dsimp only
    rw [hnext]
    cases piece.cls <;> simp [Scan.move, Token.shift, Diagnostic.shift, Span.shift, Nat.add_right_comm]

theorem shift_move (levels : List Indent) (current : Indent) (mark : Token) :
    shift levels current (mark.shift σ) =
      ((shift levels current mark).1, (shift levels current mark).2.move σ) := by
  have hfault : ∀ e, fault (mark.shift σ) e = (fault mark e).shift σ := fun e => rfl
  unfold shift deepen shrink
  simp only [hfault]
  split
  · split <;> rfl
  · split
    · split <;> split <;> rfl
    · refine Prod.ext rfl ?_
      simp only [Scan.move, List.map_replicate]
      split
      · rfl
      · split <;> rfl

theorem scanLine_move (levels : List Indent) (number offset : Nat) (line : Text.Line) :
    scanLine levels (number + σ.lines) (offset + σ.bytes) line =
      ((scanLine levels number offset line).1, (scanLine levels number offset line).2.move σ) := by
  unfold scanLine
  dsimp only
  split
  · rfl
  · rw [Nat.add_right_comm offset, scanPieces_move, Scan.move_append, Scan.move_append]
    have hshift := shift_move σ levels (Indent.ofChars (line.text.takeWhile Indent.isPart))
      { kind := .indent, lexeme := String.ofList (line.text.takeWhile Indent.isPart), line := number,
        span := ⟨offset, offset + Text.size (line.text.takeWhile Indent.isPart)⟩ }
    simp only [Token.shift, Span.shift] at hshift
    rw [hshift]
    simp [Scan.move, Token.shift, Span.shift, Nat.add_right_comm]

/-- Lines elsewhere in a text have the same tokens, moved. -/
theorem scanLines_move (levels : List Indent) (number offset : Nat) (lines : List Text.Line) :
    scanLines levels (number + σ.lines) (offset + σ.bytes) lines =
      ((scanLines levels number offset lines).1,
        (scanLines levels number offset lines).2.move σ) := by
  induction lines generalizing levels number offset with
  | nil => rfl
  | cons line lines ih =>
    rw [scanLines_cons, scanLines_cons, Nat.add_right_comm, Nat.add_right_comm offset, scanLine_move,
      ih, Scan.move_append]

/-! ### Levels left open -/

theorem column_pos_shift {levels : List Indent} (h : ∀ l ∈ levels, 0 < l.column) (current : Indent)
    (mark : Token) : ∀ l ∈ (shift levels current mark).1, 0 < l.column := by
  unfold shift
  split
  · exact h
  · split
    · rename_i hlt
      exact List.forall_mem_cons.2 ⟨Nat.zero_lt_of_lt hlt, h⟩
    · exact fun l hl => h l ((List.dropWhile_sublist _).mem hl)

theorem column_pos_scanLine {levels : List Indent} (h : ∀ l ∈ levels, 0 < l.column)
    (number offset : Nat) (line : Text.Line) :
    ∀ l ∈ (scanLine levels number offset line).1, 0 < l.column := by
  unfold scanLine
  dsimp only
  split
  · exact h
  · exact column_pos_shift h _ _

theorem column_pos_scanLines {levels : List Indent} (h : ∀ l ∈ levels, 0 < l.column)
    (number offset : Nat) (lines : List Text.Line) :
    ∀ l ∈ (scanLines levels number offset lines).1, 0 < l.column := by
  induction lines generalizing levels number offset with
  | nil => exact h
  | cons line lines ih =>
    rw [scanLines_cons]
    exact ih (column_pos_scanLine h _ _ _) _ _

theorem keep_zero {levels : List Indent} (h : ∀ l ∈ levels, 0 < l.column) : keep levels 0 = [] :=
  List.dropWhile_eq_nil_iff.2 fun l hl => decide_eq_true (h l hl)

/-- A line at the margin closes all levels. -/
theorem shift_base {levels : List Indent} (h : ∀ l ∈ levels, 0 < l.column) (mark : Token) :
    ∃ closing : Token, closing.kind = .dedent ∧
      shift levels Indent.base mark = ([], ⟨List.replicate levels.length closing, []⟩) := by
  cases levels with
  | nil => exact ⟨{ mark with kind := .dedent }, rfl, rfl⟩
  | cons l levels =>
    have hpos : 0 < l.column := h l List.mem_cons_self
    refine ⟨{ kind := .dedent, lexeme := "", line := mark.line, span := Span.empty mark.span.stop },
      rfl, ?_⟩
    unfold shift shrink
    rw [if_neg (by simp [top, Indent.base]; omega), if_neg (by simp [top, Indent.base]),
      show Indent.base.column = 0 from rfl, keep_zero h]
    rfl

theorem eq_base_of_shift {current : Indent} {mark : Token} (hmark : mark.kind = .indent)
    (hindent : ∀ t ∈ (shift [] current mark).2.tokens.head?, t.kind ≠ .indent)
    (herrors : (shift [] current mark).2.errors = []) : current = Indent.base := by
  unfold shift at hindent herrors
  split at herrors
  · rename_i hcolumn
    by_cases halternate : current.alternate = (top []).alternate
    · cases current
      exact congrArg₂ Indent.mk hcolumn halternate
    · rw [if_pos halternate] at herrors
      cases herrors
  · rename_i hcolumn
    have hpos : (top []).column < current.column := Nat.pos_of_ne_zero hcolumn
    rw [if_neg hcolumn, if_pos hpos] at hindent
    exact absurd hmark (hindent mark rfl)

/-- Levels matter to a visible line only for its indentation. -/
theorem exists_scanLine_of_visible {line : Text.Line} (h : line.Visible) (number offset : Nat) :
    ∃ current mark rest, mark.kind = .indent ∧ ∀ levels, scanLine levels number offset line =
      ((shift levels current mark).1, (shift levels current mark).2 ++ rest) := by
  refine ⟨line.indent, mark number offset line,
    scanBody number offset line ++ ⟨[ending number offset line], []⟩, rfl, fun levels => ?_⟩
  rw [scanLine_of_visible h, Scan.append_assoc]

/-- Lines whose first visible one stands at the margin close the levels that are still open, and then
go on as if none had been. -/
theorem scanLines_resume {levels : List Indent} (hlevels : ∀ l ∈ levels, 0 < l.column)
    (number offset : Nat) (lines : List Text.Line)
    (hindent : ∀ t ∈ (scanLines [] number offset lines).2.tokens.head?, t.kind ≠ .indent)
    (herrors : (scanLines [] number offset lines).2.errors = []) :
    (scanLines levels number offset lines = (levels, ⟨[], []⟩) ∧
        scanLines [] number offset lines = ([], ⟨[], []⟩)) ∨
      ∃ closing : Token, closing.kind = .dedent ∧
        scanLines levels number offset lines =
          ((scanLines [] number offset lines).1,
            ⟨List.replicate levels.length closing, []⟩ ++ (scanLines [] number offset lines).2) := by
  induction lines generalizing number offset with
  | nil => exact .inl ⟨rfl, rfl⟩
  | cons line lines ih =>
    by_cases hvisible : line.Visible
    swap
    · have hskip : ∀ levels, scanLines levels number offset (line :: lines) =
          scanLines levels (number + 1) (offset + line.size) lines := by
        intro levels
        rw [scanLines_cons, scanLine_of_invisible hvisible]
        rfl
      simp only [hskip] at hindent herrors ⊢
      exact ih _ _ hindent herrors
    · right
      obtain ⟨current, mark, rest, hmark, hline⟩ :=
        exists_scanLine_of_visible hvisible (number + 1) offset
      simp only [scanLines_cons, hline] at hindent herrors ⊢
      have hbase : current = Indent.base := by
        refine eq_base_of_shift hmark (fun t ht => hindent t ?_) ?_
        · simp [List.head?_append, Option.mem_def.1 ht]
        · simp only [Scan.errors_append, List.append_eq_nil_iff] at herrors
          exact herrors.1.1
      rw [hbase]
      obtain ⟨closing, hclosing, hshift⟩ := shift_base hlevels mark
      refine ⟨closing, hclosing, ?_⟩
      rw [hshift, show shift [] Indent.base mark = ([], ⟨[], []⟩) from rfl, Scan.append_assoc]
      rfl

/-- The lines of a text and then its end. -/
theorem scanFrom_eq_close (levels : List Indent) (number offset : Nat) {cs : List Char}
    (h : Text.endsWithNewline cs = true) :
    scanFrom levels number offset true (Text.lines cs) =
      (scanLines levels number offset (Text.lines cs)).2 ++
        close (scanLines levels number offset (Text.lines cs)).1 (number + (Text.lines cs).length)
          (offset + Text.size cs) true := by
  have hlines := scanFrom_append levels number offset (Text.ended_of_mem_lines h) []
  rw [List.append_nil] at hlines
  rw [hlines, scanFrom, linesSize_lines]

/-- How far a text in front moves the text behind it. -/
def extent (cs : List Char) : Shift := ⟨(Text.lines cs).length, Text.size cs⟩

theorem scan_append_eq {a b : List Char} (ha : Text.endsWithNewline a = true)
    (hb : Text.endsWithNewline b = true) :
    ∃ number offset, scan (a ++ b) =
      (scanLines [] 0 0 (Text.lines a)).2 ++
        ((scanLines (scanLines [] 0 0 (Text.lines a)).1 0 0 (Text.lines b)).2.move (extent a) ++
          close (scanLines (scanLines [] 0 0 (Text.lines a)).1 0 0 (Text.lines b)).1 number offset
            true) := by
  refine ⟨0 + (extent a).lines + (Text.lines b).length, 0 + (extent a).bytes + Text.size b, ?_⟩
  have hmove := scanLines_move (extent a) (scanLines [] 0 0 (Text.lines a)).1 0 0 (Text.lines b)
  rw [scan, Text.lines_append ha, scanFrom_append [] 0 0 (Text.ended_of_mem_lines ha),
    scanFrom_eq_close _ _ _ hb, linesSize_lines]
  rw [extent] at hmove ⊢
  rw [hmove]

theorem stands_closing {f : Token → Token} {t t' : Token} (ht : t.kind = .dedent)
    (ht' : t'.kind = .dedent) (n : Nat) :
    List.Forall₂ (Grammar.Stands f) (List.replicate n t) (List.replicate n t') :=
  Grammar.Stands.replicate (.of_isStructural (ht'.trans ht.symm) (by rw [ht]; rfl)) n

theorem stands_last {f : Token → Token} {t t' : Token} (ht : t.kind = .endOfFile)
    (ht' : t'.kind = .endOfFile) : List.Forall₂ (Grammar.Stands f) [t] [t'] :=
  .cons (.of_isStructural (ht'.trans ht.symm) (by rw [ht]; rfl)) .nil

/-- Of two texts the first keeps its tokens, but that its levels can be closed elsewhere, and the
second has its own, moved, but that structural tokens can be elsewhere. -/
theorem scan_append {a b : List Char} (ha : Text.endsWithNewline a = true)
    (hb : Text.endsWithNewline b = true) (haerrors : (scan a).errors = [])
    (hberrors : (scan b).errors = []) (hindent : ∀ t ∈ (scan b).tokens.head?, t.kind ≠ .indent) :
    (scan (a ++ b)).errors = [] ∧
      ∃ as as' last bs, (scan a).tokens = as ++ [last] ∧ (scan (a ++ b)).tokens = as' ++ bs ∧
        List.Forall₂ (Grammar.Stands id) as as' ∧
        List.Forall₂ (Grammar.Stands (Token.shift (extent a))) (scan b).tokens bs := by
  have hscana : scan a = _ := scanFrom_eq_close [] 0 0 ha
  have hscanb : scan b = _ := scanFrom_eq_close [] 0 0 hb
  obtain ⟨number, offset, hscan⟩ := scan_append_eq ha hb
  have hlevels : ∀ l ∈ (scanLines [] 0 0 (Text.lines a)).1, 0 < l.column :=
    column_pos_scanLines (by simp) 0 0 _
  generalize scanLines [] 0 0 (Text.lines a) = front at hscana hscan hlevels
  rw [hscana] at haerrors ⊢
  rw [hscanb] at hberrors hindent ⊢
  rw [hscan]
  simp only [Scan.errors_append, List.append_eq_nil_iff] at haerrors hberrors ⊢
  simp only [Scan.tokens_append] at hindent ⊢
  have hfront : List.Forall₂ (Grammar.Stands id) front.2.tokens front.2.tokens :=
    List.forall₂_same.2 fun t _ => ⟨rfl, fun _ => rfl⟩
  obtain ⟨closing, last, hclosing, -, htokens⟩ :=
    exists_tokens_close front.1 (0 + (Text.lines a).length) (0 + Text.size a) true
  rw [htokens, ← List.append_assoc]
  have hresume := scanLines_resume hlevels 0 0 (Text.lines b)
    (fun t ht => hindent t (by simp [List.head?_append, Option.mem_def.1 ht])) hberrors.1
  rcases hresume with ⟨hjoint, halone⟩ | ⟨closing', hclosing', hjoint⟩
  · -- nothing to be seen of the second text: its end closes the levels
    rw [hjoint, halone]
    obtain ⟨closing', last', hclosing', hlast', htokens'⟩ :=
      exists_tokens_close front.1 number offset true
    refine ⟨⟨haerrors.1, rfl, rfl⟩, _, front.2.tokens ++ List.replicate _ closing', last, [last'],
      rfl, ?_, List.rel_append hfront (stands_closing hclosing hclosing' _), ?_⟩
    · simp [htokens', Scan.move]
    · exact stands_last rfl hlast'
  · -- its first visible line closes them
    rw [hjoint]
    have hmoved : (closing'.shift (extent a)).kind = .dedent := hclosing'
    refine ⟨⟨haerrors.1, by simp [Scan.move, hberrors.1], rfl⟩, _,
      front.2.tokens ++ List.replicate _ (closing'.shift (extent a)), last,
      (scanLines [] 0 0 (Text.lines b)).2.tokens.map (Token.shift (extent a)) ++
        (close (scanLines [] 0 0 (Text.lines b)).1 number offset true).tokens,
      rfl, ?_, List.rel_append hfront (stands_closing hclosing hmoved _), ?_⟩
    · simp [Scan.move]
    · obtain ⟨closing, last, hclosing, hlast, htokens⟩ := exists_tokens_close
        (scanLines [] 0 0 (Text.lines b)).1 (0 + (Text.lines b).length) (0 + Text.size b) true
      obtain ⟨closing', last', hclosing', hlast', htokens'⟩ :=
        exists_tokens_close (scanLines [] 0 0 (Text.lines b)).1 number offset true
      rw [htokens, htokens']
      have hkind : ∀ t : Token, (t.shift (extent a)).kind = t.kind := fun _ => rfl
      exact List.rel_append (Grammar.Stands.map hkind _)
        (List.rel_append (stands_closing hclosing hclosing' _) (stands_last hlast hlast'))

end Layout

namespace Grammar

/-! ### Programs -/

/-- A program does not start with an indent. -/
theorem Derives.head_ne_indent {ss : List Stmt} {ts : List Token} (h : Derives (.program ss) ts) :
    ∀ t ∈ ts.head?, t.kind ≠ .indent := by
  cases h with
  | program hss he =>
    cases hss with
    | noStatements =>
      rintro t ⟨⟩
      rw [he]
      nofun
    | moreStatements hs _ =>
      obtain ⟨t, us, rfl, ht⟩ := hs.opens
      rintro t ⟨⟩ hindent
      rw [hindent] at ht
      cases ht

/-- A program in front of another one is read as the statements of both. -/
theorem read_append {a b : List Char} {ss ss' : List Stmt} (ha : Text.endsWithNewline a = true)
    (hb : Text.endsWithNewline b = true) (hreada : read a = .ok ss) (hreadb : read b = .ok ss') :
    read (a ++ b) = .ok (ss ++ Stmt.mapAllTokens (Token.shift (Layout.extent a)) ss') := by
  obtain ⟨haerrors, hderivesa⟩ := read_eq_ok_iff.1 hreada
  obtain ⟨hberrors, hderivesb⟩ := read_eq_ok_iff.1 hreadb
  obtain ⟨herrors, as, as', last, bs, htokens, htokens', has, hbs⟩ :=
    Layout.scan_append ha hb haerrors hberrors hderivesb.head_ne_indent
  refine read_eq_ok_iff.2 ⟨herrors, ?_⟩
  rw [htokens']
  have hfront : Derives (.statements ss) as := by
    rw [htokens] at hderivesa
    generalize hts : as ++ [last] = ts at hderivesa
    cases hderivesa with
    | program hss _ =>
      obtain ⟨rfl, -⟩ := List.append_inj' hts rfl
      exact hss
  have hfront' := hfront.relabel (f := id) (fun _ => rfl) (fun _ => rfl) has
  have hback := hderivesb.relabel (f := Token.shift (Layout.extent a)) (fun _ => rfl)
    (fun _ => rfl) hbs
  rw [Phrase.mapTokens, Stmt.mapAllTokens_id] at hfront'
  rw [Phrase.mapTokens] at hback
  cases hback with
  | program hss he =>
    rw [← List.append_assoc]
    exact .program (hfront'.append_statements hss) he

end Grammar

namespace Scope

/-! ### Scopes -/

/-- Findings, moved within a text. -/
def Findings.move (σ : Shift) (f : Findings) : Findings :=
  ⟨f.references.map fun r => (r.1.shift σ, r.2), f.errors.map (·.shift σ)⟩

variable (σ : Shift)

/-- The analysis of scopes finds the same in code that is moved. -/
theorem ofStmts_move (b : Bool) (outer : List Names) (scope : Names) (ss : List Stmt) :
    ofStmts b outer scope (Stmt.mapAllTokens (Token.shift σ) ss) =
      ((ofStmts b outer scope ss).1, (ofStmts b outer scope ss).2.move σ) :=
  ofStmts_transport σ.transport b outer scope ss

theorem ofStmts_append (b : Bool) (outer : List Names) (scope : Names) (ss ss' : List Stmt) :
    ofStmts b outer scope (ss ++ ss') =
      ((ofStmts b outer (ofStmts b outer scope ss).1 ss').1,
        (ofStmts b outer scope ss).2 ++ (ofStmts b outer (ofStmts b outer scope ss).1 ss').2) := by
  induction ss generalizing scope with
  | nil => rfl
  | cons s ss ih =>
    rw [List.cons_append, ofStmts_cons, ofStmts_cons, ih]
    show (_, Findings.mk _ _) = (_, Findings.mk _ _)
    simp

/-- What is found about statements and then about other statements that are moved. -/
theorem resolve_append (globals : Names) (ss ss' : List Stmt) :
    resolve globals (ss ++ Stmt.mapAllTokens (Token.shift σ) ss') =
      resolve globals ss ++ (resolve (ofStmts false [] globals ss).1 ss').move σ := by
  rw [resolve, ofStmts_append, ofStmts_move]
  rfl

/-- Distances that are recorded in one map can be looked up in another where they are recorded. -/
theorem Recorded.lookup {map map' : ScopeMap} {found : Findings} (h : Recorded map found)
    {span span' : Span} (hspan : span ∈ found.references.map (·.1)) {d : Nat}
    (hd : map[span]? = some d)
    (h' : ∀ d, (span, d) ∈ found.references → map'[span']? = some d) : map'[span']? = some d := by
  obtain ⟨⟨span, d'⟩, hmem, rfl⟩ := List.mem_map.1 hspan
  obtain rfl : d' = d := Option.some.inj ((h.references _ hmem).symm.trans hd)
  exact h' d' hmem

end Scope

namespace Session

theorem compile_of_read (globals : Names) {text : List Char} {stmts : List Stmt}
    (hread : Grammar.read text = .ok stmts) (herrors : (Scope.resolve globals stmts).errors = []) :
    compile globals text =
      .ok ⟨stmts, ScopeMap.ofReferences (Scope.resolve globals stmts).references⟩ := by
  unfold compile
  rw [hread]
  simp [herrors]

theorem span_mem_references {globals : Names} {stmts : List Stmt}
    (h : (Scope.resolve globals stmts).errors = []) {t : Token}
    (ht : t ∈ references (Stmt.allMarks stmts)) :
    t.span ∈ (Scope.resolve globals stmts).references.map (·.1) :=
  (Scope.references_ofStmts stmts h).symm.subset (List.mem_map_of_mem ht)

/-- Two texts that compile one after the other, the second with the names that the first declares,
compile as one. All references keep their distances. -/
theorem compile_append {globals : Names} {a b : List Char} {first second : Compiled}
    (ha : Text.endsWithNewline a = true) (hb : Text.endsWithNewline b = true)
    (hfirst : compile globals a = .ok first)
    (hsecond : compile (Scope.ofStmts false [] globals first.stmts).1 b = .ok second) :
    ∃ scope, compile globals (a ++ b) =
        .ok ⟨first.stmts ++ Stmt.mapAllTokens (Token.shift (Layout.extent a)) second.stmts, scope⟩ ∧
      (∀ t ∈ references (Stmt.allMarks first.stmts), ∀ d, first.scope[t.span]? = some d →
        scope[t.span]? = some d) ∧
      ∀ t ∈ references (Stmt.allMarks second.stmts), ∀ d, second.scope[t.span]? = some d →
        scope[(t.shift (Layout.extent a)).span]? = some d := by
  obtain ⟨hread, herrors, -⟩ := compile_eq_ok hfirst
  obtain ⟨hread', herrors', -⟩ := compile_eq_ok hsecond
  have hresolve := Scope.resolve_append (Layout.extent a) globals first.stmts second.stmts
  have hcompile := compile_of_read globals (Grammar.read_append ha hb hread hread')
    (by simp [hresolve, herrors, Scope.Findings.move, herrors'])
  refine ⟨_, hcompile, fun t ht d hd => ?_, fun t ht d hd => ?_⟩
  · refine (recorded_of_compile hfirst).lookup (span_mem_references herrors ht) hd fun d hmem => ?_
    refine (recorded_of_compile hcompile).references (t.span, d) ?_
    rw [hresolve]
    exact List.mem_append_left _ hmem
  · refine (recorded_of_compile hsecond).lookup (span_mem_references herrors' ht) hd fun d hmem => ?_
    refine (recorded_of_compile hcompile).references ((t.shift (Layout.extent a)).span, d) ?_
    rw [hresolve]
    exact List.mem_append_right _ (List.mem_map_of_mem hmem)

end Session

end Offside
