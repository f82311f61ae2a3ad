import Mathlib.Data.List.Chain
import Offside.Proofs.Grammar.Rebuilding

/-!
# Programs written and read back

A program is written with one line for each statement, or for the head of a statement with a block,
and each line is indented by the number of blocks around it. Read back, the text is the same
program: the words of a line are its tokens, the indentation brings back the blocks, and the grammar
derives the tree from its tokens.

* `Rendering.Row`, `Rendering.ofStmts`: the lines of a program;
* `Rendering.Writes`: the texts of a program;
* `Rendering.lay`: the tokens of lines, with those of their indentation;
* `Rendering.scanFrom_rows`: scanning lines brings back their tokens;
* `Rendering.read_of_writes`: reading the text of a program brings back the program.
-/

namespace Offside

/-! ### Nesting -/

mutual

/-- The number of blocks around the innermost line of a statement. -/
def Stmt.nesting : Stmt → Nat
  | .block body | .define _ _ body | .repeatTimes _ _ body | .repeatWhile _ _ body =>
    Stmt.allNesting body + 1
  | .branch _ _ body rest => max (Stmt.allNesting body + 1) rest.nesting
  | .change _ _ | .create _ _ | .expression _ | .returnEmpty _ | .returnWith _ _ => 0

/-- The same for statements in a row. -/
def Stmt.allNesting : List Stmt → Nat
  | [] => 0
  | s :: ss => max s.nesting (Stmt.allNesting ss)

/-- The same for the further branches of a conditional. -/
def Else.nesting : Else → Nat
  | .nothing => 0
  | .block body => Stmt.allNesting body + 1
  | .branch _ _ body rest => max (Stmt.allNesting body + 1) rest.nesting

end

namespace Rendering

open Grammar Layout
open Text (Line)

/-! ### Lines of a program -/

/-- A line of a program: the number of blocks around it, and its tokens. -/
structure Row where
  depth : Nat
  terminals : List Terminal

mutual

/-- The lines of a statement. -/
def ofStmt (depth : Nat) : Stmt → List Row
  | .block body => ofStmts (depth + 1) body
  | .change target value =>
    [⟨depth, .word .changeWord :: .token target :: .word .equal :: exprTerminals value⟩]
  | .create name value =>
    [⟨depth, .word .createWord :: .token name :: .word .equal :: exprTerminals value⟩]
  | .define name params body =>
    ⟨depth, .word .defineWord :: .token name :: .word .leftParen ::
      (paramsTerminals params ++ [.word .rightParen])⟩ :: ofStmts (depth + 1) body
  | .expression value => [⟨depth, exprTerminals value⟩]
  | .branch token cond body rest =>
    ⟨depth, .token token :: exprTerminals cond⟩ ::
      (ofStmts (depth + 1) body ++ ofElse depth rest)
  | .repeatTimes token count body =>
    ⟨depth, .token token :: (exprTerminals count ++ [.word .timesWord])⟩ ::
      ofStmts (depth + 1) body
  | .repeatWhile token cond body =>
    ⟨depth, .token token :: .word .whileWord :: exprTerminals cond⟩ :: ofStmts (depth + 1) body
  | .returnEmpty token => [⟨depth, [.token token]⟩]
  | .returnWith token value => [⟨depth, .token token :: .word .withWord :: exprTerminals value⟩]

/-- The lines of statements in a row. -/
def ofStmts (depth : Nat) : List Stmt → List Row
  | [] => []
  | s :: ss => ofStmt depth s ++ ofStmts depth ss

/-- The lines of the further branches of a conditional. -/
def ofElse (depth : Nat) : Else → List Row
  | .nothing => []
  | .block body => ⟨depth, [.word .otherwiseWord]⟩ :: ofStmts (depth + 1) body
  | .branch token cond body rest =>
    ⟨depth, .word .otherwiseWord :: .token token :: exprTerminals cond⟩ ::
      (ofStmts (depth + 1) body ++ ofElse depth rest)

end

/-- The ways to write a line: its words with single spaces between them, after `width` spaces for
each block around it. -/
def Row.Writes (width : Nat) (r : Row) (line : List Char) : Prop :=
  ∃ words, List.Forall₂ Terminal.Spells r.terminals words ∧
    line = List.replicate (width * r.depth) ' ' ++ [' '].intercalate words

/-- The texts of a program. -/
def Writes (width : Nat) (program : List Stmt) (text : List Char) : Prop :=
  ∃ lines, List.Forall₂ (Row.Writes width) (ofStmts 0 program) lines ∧
    text = lines.flatMap (· ++ ['\n'])

/-! ### Depths -/

/-- Tokens that can all be written. -/
def Writable (τs : List Terminal) : Prop := ∀ τ ∈ τs, τ.Writable

namespace Writable

variable {τs σs : List Terminal} {t : Token} {kind : Kind}

theorem nil : Writable [] := fun _ h => absurd h List.not_mem_nil

theorem word (s : String) (h : (s, kind) ∈ Kind.words) (hτs : Writable τs) :
    Writable (.word kind :: τs) := List.forall_mem_cons.2 ⟨⟨s, h⟩, hτs⟩

theorem token (h : t.IsWord kind) (hτs : Writable τs) : Writable (.token t :: τs) :=
  List.forall_mem_cons.2 ⟨.inr ⟨kind, h⟩, hτs⟩

theorem name (h : t.IsName) (hτs : Writable τs) : Writable (.token t :: τs) :=
  List.forall_mem_cons.2 ⟨.inl h, hτs⟩

theorem append (hτs : Writable τs) (hσs : Writable σs) : Writable (τs ++ σs) :=
  List.forall_mem_append.2 ⟨hτs, hσs⟩

end Writable

/-- Lines with at least `depth` and at most `n` more blocks around them. The first has `depth`
blocks, and a line is never more than one block deeper than the line before it. -/
structure Fits (depth n : Nat) (rows : List Row) : Prop where
  row : ∀ r ∈ rows, r.terminals ≠ [] ∧ Writable r.terminals ∧ depth ≤ r.depth ∧ r.depth ≤ depth + n
  head : ∀ r ∈ rows.head?, r.depth = depth
  chain : rows.IsChain fun r r' => r'.depth ≤ r.depth + 1

namespace Fits

variable {depth n m : Nat} {rows rows' : List Row}

theorem nil : Fits depth n [] := ⟨by simp, by simp, .nil⟩

theorem mono (h : Fits depth n rows) (hle : n ≤ m) : Fits depth m rows where
  row r hr := by
    obtain ⟨hne, hwritable, hlow, hhigh⟩ := h.row r hr
    exact ⟨hne, hwritable, hlow, by omega⟩
  head := h.head
  chain := h.chain

theorem append (h : Fits depth n rows) (h' : Fits depth n rows') : Fits depth n (rows ++ rows') where
  row r hr := (List.mem_append.1 hr).elim (h.row r) (h'.row r)
  head r hr := by
    cases rows with
    | nil => exact h'.head r hr
    | cons r' rows => exact h.head r hr
  chain := by
    refine List.isChain_append.2 ⟨h.chain, h'.chain, fun r hr r' hr' => ?_⟩
    obtain ⟨-, -, hlow, -⟩ := h.row r (List.mem_of_getLast? hr)
    have hhead := h'.head r' hr'
    omega

/-- A line before a block. -/
theorem cons {τs : List Terminal} (hne : τs ≠ []) (hτs : Writable τs)
    (h : Fits (depth + 1) n rows) : Fits depth (n + 1) (⟨depth, τs⟩ :: rows) where
  row r hr := by
    rcases List.mem_cons.1 hr with rfl | hr
    · exact ⟨hne, hτs, Nat.le_refl _, Nat.le_add_right _ _⟩
    · obtain ⟨hne', hwritable, hlow, hhigh⟩ := h.row r hr
      exact ⟨hne', hwritable, by omega, by omega⟩
  head r hr := by
    obtain rfl : _ = r := Option.some.inj hr
    rfl
  chain := by
    refine List.isChain_cons.2 ⟨fun r hr => ?_, h.chain⟩
    exact Nat.le_of_eq (h.head r hr)

/-- A line on its own. -/
theorem single {τs : List Terminal} (hne : τs ≠ []) (hτs : Writable τs) :
    Fits depth 0 [⟨depth, τs⟩] where
  row r hr := by
    rw [List.mem_singleton.1 hr]
    exact ⟨hne, hτs, Nat.le_refl _, Nat.le_refl _⟩
  head r hr := by
    obtain rfl : _ = r := Option.some.inj hr
    rfl
  chain := .singleton _

end Fits

theorem exprTerminals_ne_nil (e : Expr) : exprTerminals e ≠ [] := by
  cases e <;> simp [exprTerminals]

mutual

theorem writable_expr : ∀ e : Expr, e.WellFormed → Writable (exprTerminals e)
  | .constant _, h => List.forall_mem_singleton.2 h
  | .variable _, h => .name h .nil
  | .group inner, h =>
    .word "(" (by decide) (.append (writable_expr inner h) (.word ")" (by decide) .nil))
  | .unary _ _ operand, ⟨⟨_, _, hword⟩, _, hoperand⟩ =>
    .token hword (writable_expr operand hoperand)
  | .binary _ _ left right, ⟨⟨⟨_, _, hword⟩, _, _⟩, hleft, hright⟩ =>
    .append (writable_expr left hleft) (.token hword (writable_expr right hright))
  | .logical _ _ left right, ⟨⟨⟨_, _, hword⟩, _, _⟩, hleft, hright⟩ =>
    .append (writable_expr left hleft) (.token hword (writable_expr right hright))
  | .call callee args _, ⟨_, hcallee, hargs, _, hparen⟩ =>
    .append (writable_expr callee hcallee)
      (.word "(" (by decide) (.append (writable_exprs args hargs) (.token hparen .nil)))

theorem writable_exprs : ∀ es : List Expr, Expr.AllWellFormed es →
    Writable (separated (exprsTerminals es))
  | [], _ => .nil
  | [e], ⟨he, _⟩ => writable_expr e he
  | e :: f :: es, ⟨he, hes⟩ =>
    .append (writable_expr e he) (.word "," (by decide) (writable_exprs (f :: es) hes))

end

theorem writable_params : ∀ ps : List Token, (∀ p ∈ ps, p.IsName) →
    Writable (separated (ps.map fun p => [.token p]))
  | [], _ => .nil
  | [p], h => .name (h p List.mem_cons_self) .nil
  | p :: q :: ps, h =>
    .name (h p List.mem_cons_self)
      (.word "," (by decide) (writable_params (q :: ps) fun r hr => h r (List.mem_cons_of_mem p hr)))

theorem writable_paramsTerminals {ps : List Token} (h : ∀ p ∈ ps, p.IsName) :
    Writable (paramsTerminals ps) := by
  cases ps with
  | nil => exact .nil
  | cons p ps => exact .word "accept" (by decide) (writable_params _ h)

mutual

/-- The lines of a statement that can be written. -/
theorem fits_stmt (depth : Nat) :
    ∀ s : Stmt, s.WellFormed → Fits depth s.nesting (ofStmt depth s)
  | .block _, h => h.elim
  | .change _ value, ⟨hname, hvalue⟩ =>
    .single (List.cons_ne_nil _ _)
      (.word "change" (by decide) (.name hname (.word "=" (by decide) (writable_expr value hvalue))))
  | .create _ value, ⟨hname, hvalue⟩ =>
    .single (List.cons_ne_nil _ _)
      (.word "create" (by decide) (.name hname (.word "=" (by decide) (writable_expr value hvalue))))
  | .define _ _ body, ⟨hname, hparams, _, _, hbody⟩ =>
    .cons (List.cons_ne_nil _ _)
      (.word "define" (by decide) (.name hname (.word "(" (by decide)
        (.append (writable_paramsTerminals hparams) (.word ")" (by decide) .nil)))))
      (fits_stmts (depth + 1) body hbody)
  | .expression value, hvalue => .single (exprTerminals_ne_nil value) (writable_expr value hvalue)
  | .branch _ cond body rest, ⟨hword, hcond, _, hbody, hrest⟩ =>
    have hfirst := Fits.cons (List.cons_ne_nil _ _) (.token hword (writable_expr cond hcond))
      (fits_stmts (depth + 1) body hbody)
    (hfirst.mono (Nat.le_max_left _ _)).append
      ((fits_else depth rest hrest).mono (Nat.le_max_right _ _))
  | .repeatTimes _ count body, ⟨hword, hcount, _, hbody⟩ =>
    .cons (List.cons_ne_nil _ _)
      (.token hword (.append (writable_expr count hcount) (.word "times" (by decide) .nil)))
      (fits_stmts (depth + 1) body hbody)
  | .repeatWhile _ cond body, ⟨hword, hcond, _, hbody⟩ =>
    .cons (List.cons_ne_nil _ _)
      (.token hword (.word "while" (by decide) (writable_expr cond hcond)))
      (fits_stmts (depth + 1) body hbody)
  | .returnEmpty _, hword => .single (List.cons_ne_nil _ _) (.token hword .nil)
  | .returnWith _ value, ⟨hword, hvalue⟩ =>
    .single (List.cons_ne_nil _ _)
      (.token hword (.word "with" (by decide) (writable_expr value hvalue)))

/-- The same for statements in a row. -/
theorem fits_stmts (depth : Nat) :
    ∀ ss : List Stmt, Stmt.AllWellFormed ss → Fits depth (Stmt.allNesting ss) (ofStmts depth ss)
  | [], _ => .nil
  | s :: ss, ⟨hs, hss⟩ =>
    ((fits_stmt depth s hs).mono (Nat.le_max_left _ _)).append
      ((fits_stmts depth ss hss).mono (Nat.le_max_right _ _))

/-- The same for the further branches of a conditional. -/
theorem fits_else (depth : Nat) :
    ∀ r : Else, r.WellFormed → Fits depth r.nesting (ofElse depth r)
  | .nothing, _ => .nil
  | .block body, ⟨_, hbody⟩ =>
    .cons (List.cons_ne_nil _ _) (.word "otherwise" (by decide) .nil)
      (fits_stmts (depth + 1) body hbody)
  | .branch _ cond body rest, ⟨hword, hcond, _, hbody, hrest⟩ =>
    have hfirst := Fits.cons (List.cons_ne_nil _ _)
      (.word "otherwise" (by decide) (.token hword (writable_expr cond hcond)))
      (fits_stmts (depth + 1) body hbody)
    (hfirst.mono (Nat.le_max_left _ _)).append
      ((fits_else depth rest hrest).mono (Nat.le_max_right _ _))

end

/-! ### The tokens of lines -/

/-- The structural tokens of a line with `depth` blocks around it, where `opened` are open. -/
def shiftTerminals (opened depth : Nat) : List Terminal :=
  if opened < depth then [.word .indent] else List.replicate (opened - depth) (.word .dedent)

/-- The tokens of lines where `opened` blocks are open, up to the end of the text. -/
def lay (opened : Nat) : List Row → List Terminal
  | [] => List.replicate opened (.word .dedent)
  | r :: rows =>
    shiftTerminals opened r.depth ++ r.terminals ++ .word .newline :: lay r.depth rows

/-- Lines that do not go on with a block deeper than `depth`. -/
def Leaves (depth : Nat) (rows : List Row) : Prop := ∀ r ∈ rows.head?, r.depth ≤ depth

theorem Fits.leaves {depth n : Nat} {rows rows' : List Row} (h : Fits depth n rows)
    (h' : Leaves depth rows') : Leaves depth (rows ++ rows') := by
  cases rows with
  | nil => exact h'
  | cons r rows => exact fun r' hr' => Nat.le_of_eq (h.head r' hr')

@[simp] theorem shiftTerminals_self (depth : Nat) : shiftTerminals depth depth = [] := by
  simp [shiftTerminals]

/-- A block that lines do not go on with is closed before them. -/
theorem lay_succ {depth : Nat} {rows : List Row} (h : Leaves depth rows) :
    lay (depth + 1) rows = .word .dedent :: lay depth rows := by
  cases rows with
  | nil => rfl
  | cons r rows =>
    have hle : r.depth ≤ depth := h r rfl
    have hshift : shiftTerminals (depth + 1) r.depth =
        .word .dedent :: shiftTerminals depth r.depth := by
      unfold shiftTerminals
      rw [if_neg (by omega), if_neg (by omega), Nat.sub_add_comm hle, List.replicate_succ]
    rw [lay, lay, hshift]
    rfl

theorem ofStmts_ne_nil (depth : Nat) {ss : List Stmt} (hne : ss ≠ []) (h : Stmt.AllWellFormed ss) :
    ofStmts depth ss ≠ [] := by
  cases ss with
  | nil => exact absurd rfl hne
  | cons s ss =>
    have hs : ofStmt depth s ≠ [] := by
      cases s with
      | block body => exact h.1.elim
      | _ => simp [ofStmt]
    simp [ofStmts, hs]

/-- A block is opened by its first line, and closed before what follows it. -/
theorem lay_block {depth : Nat} {body : List Stmt} (hne : body ≠ [])
    (hformed : Stmt.AllWellFormed body) {more : List Row} (hmore : Leaves depth more)
    (hbody : lay (depth + 1) (ofStmts (depth + 1) body ++ more) =
      stmtsTerminals body ++ lay (depth + 1) more) :
    .word .newline :: lay depth (ofStmts (depth + 1) body ++ more) =
      blockTerminals (stmtsTerminals body) ++ lay depth more := by
  have hfits := fits_stmts (depth + 1) body hformed
  have hrows := ofStmts_ne_nil (depth + 1) hne hformed
  generalize ofStmts (depth + 1) body = rows at hfits hrows hbody ⊢
  cases rows with
  | nil => exact absurd rfl hrows
  | cons r rows =>
    have hdepth : r.depth = depth + 1 := hfits.head r rfl
    have hshift : shiftTerminals depth r.depth = [.word .indent] := if_pos (by omega)
    have hlay : lay depth (r :: (rows ++ more)) =
        .word .indent :: lay (depth + 1) (r :: (rows ++ more)) := by
      rw [lay, lay, hshift, hdepth, shiftTerminals_self]
      rfl
    rw [List.cons_append] at hbody ⊢
    rw [hlay, hbody, lay_succ hmore, blockTerminals]
    simp

theorem Leaves.succ {depth : Nat} {rows : List Row} (h : Leaves depth rows) :
    Leaves (depth + 1) rows := fun r hr => Nat.le_succ_of_le (h r hr)

mutual

/-- The tokens of the lines of a statement are those of the statement: the indents and dedents of
the lines are those of its blocks. -/
theorem lay_stmt (depth : Nat) : ∀ s : Stmt, s.WellFormed → ∀ {more : List Row},
    Leaves depth more → lay depth (ofStmt depth s ++ more) = stmtTerminals s ++ lay depth more
  | .block _, h, _, _ => h.elim
  | .change _ _, _, _, _ => by simp [ofStmt, lay, stmtTerminals]
  | .create _ _, _, _, _ => by simp [ofStmt, lay, stmtTerminals]
  | .define _ _ body, ⟨_, _, _, hne, hbody⟩, more, hmore => by
    have hblock := lay_block hne hbody hmore (lay_stmts (depth + 1) body hbody hmore.succ)
    rw [ofStmt, List.cons_append, lay, hblock, stmtTerminals]
    simp
  | .expression _, _, _, _ => by simp [ofStmt, lay, stmtTerminals]
  | .branch _ _ body rest, ⟨_, _, hne, hbody, hrest⟩, more, hmore => by
    have hleaves := (fits_else depth rest hrest).leaves hmore
    have hblock := lay_block hne hbody hleaves (lay_stmts (depth + 1) body hbody hleaves.succ)
    rw [ofStmt, List.cons_append, List.append_assoc, lay, hblock, lay_else depth rest hrest hmore,
      stmtTerminals]
    simp
  | .repeatTimes _ _ body, ⟨_, _, hne, hbody⟩, more, hmore => by
    have hblock := lay_block hne hbody hmore (lay_stmts (depth + 1) body hbody hmore.succ)
    rw [ofStmt, List.cons_append, lay, hblock, stmtTerminals]
    simp
  | .repeatWhile _ _ body, ⟨_, _, hne, hbody⟩, more, hmore => by
    have hblock := lay_block hne hbody hmore (lay_stmts (depth + 1) body hbody hmore.succ)
    rw [ofStmt, List.cons_append, lay, hblock, stmtTerminals]
    simp
  | .returnEmpty _, _, _, _ => by simp [ofStmt, lay, stmtTerminals]
  | .returnWith _ _, _, _, _ => by simp [ofStmt, lay, stmtTerminals]

/-- The same for statements in a row. -/
theorem lay_stmts (depth : Nat) : ∀ ss : List Stmt, Stmt.AllWellFormed ss → ∀ {more : List Row},
    Leaves depth more → lay depth (ofStmts depth ss ++ more) = stmtsTerminals ss ++ lay depth more
  | [], _, _, _ => rfl
  | s :: ss, ⟨hs, hss⟩, more, hmore => by
    rw [ofStmts, List.append_assoc, lay_stmt depth s hs ((fits_stmts depth ss hss).leaves hmore),
      lay_stmts depth ss hss hmore, stmtsTerminals, List.append_assoc]

/-- The same for the further branches of a conditional. -/
theorem lay_else (depth : Nat) : ∀ r : Else, r.WellFormed → ∀ {more : List Row},
    Leaves depth more → lay depth (ofElse depth r ++ more) = elseTerminals r ++ lay depth more
  | .nothing, _, _, _ => rfl
  | .block body, ⟨hne, hbody⟩, more, hmore => by
    have hblock := lay_block hne hbody hmore (lay_stmts (depth + 1) body hbody hmore.succ)
    rw [ofElse, List.cons_append, lay, hblock, elseTerminals]
    simp
  | .branch _ _ body rest, ⟨_, _, hne, hbody, hrest⟩, more, hmore => by
    have hleaves := (fits_else depth rest hrest).leaves hmore
    have hblock := lay_block hne hbody hleaves (lay_stmts (depth + 1) body hbody hleaves.succ)
    rw [ofElse, List.cons_append, List.append_assoc, lay, hblock, lay_else depth rest hrest hmore,
      elseTerminals]
    simp

end

/-! ### Indentation -/

/-- The levels that are open within `depth` blocks. -/
def ladder (width : Nat) : Nat → List Indent
  | 0 => []
  | depth + 1 => ⟨width * (depth + 1), width * (depth + 1)⟩ :: ladder width depth

@[simp] theorem top_ladder (width depth : Nat) :
    top (ladder width depth) = ⟨width * depth, width * depth⟩ := by
  cases depth <;> rfl

@[simp] theorem length_ladder (width depth : Nat) : (ladder width depth).length = depth := by
  induction depth with
  | zero => rfl
  | succ depth ih => rw [ladder, List.length_cons, ih]

theorem keep_ladder {width opened depth : Nat} (hwidth : 0 < width) (h : depth ≤ opened) :
    keep (ladder width opened) (width * depth) = ladder width depth := by
  induction opened with
  | zero =>
    obtain rfl := Nat.le_zero.1 h
    rfl
  | succ opened ih =>
    rcases Nat.lt_or_eq_of_le h with hlt | rfl
    · have hcolumn : width * depth < width * (opened + 1) := Nat.mul_lt_mul_of_pos_left hlt hwidth
      rw [keep, ladder, List.dropWhile_cons, if_pos (decide_eq_true hcolumn)]
      exact ih (Nat.le_of_lt_succ hlt)
    · rw [keep, ladder, List.dropWhile_cons, if_neg (by simp)]

/-- The indentation of a line has the structural tokens of its depth, without a fault. -/
theorem shift_ladder {width opened depth : Nat} (hwidth : 0 < width) (hstep : depth ≤ opened + 1)
    (hdeep : depth ≤ maxDepth) {mark : Token} (hmark : mark.kind = .indent) :
    ∃ s : Scan, shift (ladder width opened) ⟨width * depth, width * depth⟩ mark =
        (ladder width depth, s) ∧
      s.errors = [] ∧ List.Forall₂ Terminal.Reads (shiftTerminals opened depth) s.tokens := by
  unfold shift
  rw [top_ladder]
  dsimp only
  rcases Nat.lt_trichotomy depth opened with hlt | rfl | hgt
  · -- levels are closed
    have hcolumn : width * depth < width * opened := Nat.mul_lt_mul_of_pos_left hlt hwidth
    refine ⟨_, by rw [if_neg (by omega), if_neg (by omega), keep_ladder hwidth (by omega)], ?_, ?_⟩
    · simp [shrink, keep_ladder hwidth (Nat.le_of_lt hlt)]
    · rw [shiftTerminals, if_neg (by omega)]
      simp only [shrink, keep_ladder hwidth (Nat.le_of_lt hlt), length_ladder]
      refine forall₂_replicate ?_ _
      rfl
  · refine ⟨_, if_pos rfl, by simp, ?_⟩
    rw [shiftTerminals_self]
    exact .nil
  · -- a level is opened
    obtain rfl : depth = opened + 1 := by omega
    have hcolumn : width * opened < width * (opened + 1) :=
      Nat.mul_lt_mul_of_pos_left (Nat.lt_succ_self opened) hwidth
    refine ⟨_, by rw [if_neg (by omega), if_pos hcolumn, ladder], ?_, ?_⟩
    · simp only [deepen, top_ladder, length_ladder]
      rw [if_neg (by omega), if_neg (by omega)]
      rfl
    · rw [shiftTerminals, if_pos (Nat.lt_succ_self opened)]
      exact .cons hmark .nil

theorem ofChars_replicate (n : Nat) : Indent.ofChars (List.replicate n ' ') = ⟨n, n⟩ := by
  have h : ∀ i : Indent,
      (List.replicate n ' ').foldl Indent.advance i = ⟨i.column + n, i.alternate + n⟩ := by
    induction n with
    | zero => exact fun _ => rfl
    | succ n ih =>
      intro i
      rw [List.replicate_succ, List.foldl_cons, ih]
      simp [Indent.advance, Nat.add_assoc, Nat.add_comm 1]
  rw [Indent.ofChars, h]
  simp [Indent.base]

/-! ### Scanning lines -/

/-- A line of words after spaces is visible, and the spaces are its indentation. -/
theorem line_of_words {τs : List Terminal} {ws : List (List Char)} (hne : τs ≠ [])
    (hτs : Writable τs) (hspells : List.Forall₂ Terminal.Spells τs ws) (n : Nat) :
    let l : Line := ⟨List.replicate n ' ' ++ [' '].intercalate ws, true⟩
    l.Visible ∧ l.blanks = List.replicate n ' ' ∧ l.body = [' '].intercalate ws := by
  intro l
  cases hspells with
  | nil => exact absurd rfl hne
  | @cons τ w _ ws hτ _ =>
    obtain ⟨kind, hword, -⟩ := Terminal.isWord_of_spells (hτs τ List.mem_cons_self) hτ
    obtain ⟨c, cs, rfl, hclassified⟩ := hword.classified
    obtain ⟨rest, hends, hrest⟩ := Piece.exists_intercalate (c :: cs) ws
    have hclass : (Piece.classify c (cs ++ rest)).1 = .token kind := by rw [hclassified rest hends]
    have hpart : ¬Indent.isPart c = true := by
      intro hpart
      have hspace := Piece.not_isWhiteSpace_of_classify hclass
      rw [Indent.isWhiteSpace_of_isPart hpart] at hspace
      cases hspace
    have hspaces : ∀ d ∈ List.replicate n ' ', Indent.isPart d = true := by
      intro d hd
      rw [List.eq_of_mem_replicate hd]
      rfl
    have hbody : l.body = c :: (cs ++ rest) := by
      show List.dropWhile Indent.isPart (List.replicate n ' ' ++ _) = _
      rw [hrest, List.dropWhile_append_of_pos hspaces, List.cons_append,
        List.dropWhile_cons_of_neg hpart]
    refine ⟨Line.visible_of_body hbody hclass, ?_, by rw [hbody, hrest]; rfl⟩
    show List.takeWhile Indent.isPart (List.replicate n ' ' ++ _) = _
    rw [hrest, List.takeWhile_append_of_pos hspaces, List.cons_append,
      List.takeWhile_cons_of_neg hpart, List.append_nil]

/-- One line: it has its structural tokens, its own tokens and its end. -/
theorem scanLine_row {width opened : Nat} {r : Row} {line : List Char} (hwidth : 0 < width)
    (hstep : r.depth ≤ opened + 1) (hdeep : r.depth ≤ maxDepth) (hne : r.terminals ≠ [])
    (hwritable : Writable r.terminals) (hline : r.Writes width line) (number offset : Nat) :
    ∃ s : Scan, scanLine (ladder width opened) number offset ⟨line, true⟩ =
        (ladder width r.depth, s) ∧
      s.errors = [] ∧
      List.Forall₂ Terminal.Reads
        (shiftTerminals opened r.depth ++ r.terminals ++ [.word .newline]) s.tokens := by
  obtain ⟨words, hspells, rfl⟩ := hline
  obtain ⟨hvisible, hblanks, hbody⟩ := line_of_words hne hwritable hspells (width * r.depth)
  generalize hl : (⟨List.replicate (width * r.depth) ' ' ++ [' '].intercalate words, true⟩ : Line) = l
    at hvisible hblanks hbody ⊢
  obtain ⟨s, hshift, herrors, htokens⟩ :=
    shift_ladder hwidth hstep hdeep (show (mark number offset l).kind = .indent from rfl)
  obtain ⟨herrors', htokens'⟩ :=
    scanPieces_words hwritable hspells number (offset + Text.size l.blanks)
  rw [scanLine_of_visible hvisible, Line.indent, hblanks, ofChars_replicate, hshift, scanBody, hbody]
  refine ⟨_, rfl, ?_, ?_⟩
  · simp only [Scan.errors_append, herrors, herrors', List.append_nil]
  · exact List.rel_append (List.rel_append htokens htokens') (.cons rfl .nil)

/-- Scanning lines brings back their tokens. The induction is on the lines; the levels open before
each are those of the blocks around the line before it. -/
theorem scanFrom_rows {width : Nat} (hwidth : 0 < width) {rows : List Row}
    {lines : List (List Char)} (hlines : List.Forall₂ (Row.Writes width) rows lines)
    (hrows : ∀ r ∈ rows, r.terminals ≠ [] ∧ Writable r.terminals ∧ r.depth ≤ maxDepth)
    (hchain : rows.IsChain fun r r' => r'.depth ≤ r.depth + 1) {opened : Nat}
    (hhead : ∀ r ∈ rows.head?, r.depth ≤ opened + 1) (number offset : Nat) :
    let s := scanFrom (ladder width opened) number offset true (lines.map (⟨·, true⟩))
    s.errors = [] ∧ List.Forall₂ Terminal.Reads (lay opened rows ++ [.word .endOfFile]) s.tokens := by
  induction hlines generalizing opened number offset with
  | nil =>
    obtain ⟨closing, last, hclosing, hlast, htokens⟩ :=
      exists_tokens_close (ladder width opened) number offset true
    refine ⟨rfl, ?_⟩
    show List.Forall₂ _ _ (close _ _ _ _).tokens
    rw [htokens, length_ladder]
    exact List.rel_append (forall₂_replicate (R := Terminal.Reads) (a := .word .dedent) hclosing _)
      (.cons hlast .nil)
  | @cons r line rows lines hline _ ih =>
    obtain ⟨⟨hne, hwritable, hdeep⟩, hlater⟩ := List.forall_mem_cons.1 hrows
    obtain ⟨hnext, hchain⟩ := List.isChain_cons.1 hchain
    obtain ⟨s, hscan, herrors, htokens⟩ :=
      scanLine_row hwidth (hhead r rfl) hdeep hne hwritable hline (number + 1) offset
    obtain ⟨herrors', htokens'⟩ :=
      ih hlater hchain hnext (number + 1) (offset + Line.size ⟨line, true⟩)
    rw [List.map_cons, scanFrom, hscan]
    refine ⟨by rw [Scan.errors_append, herrors, herrors']; rfl, ?_⟩
    have h := List.rel_append htokens htokens'
    rw [lay, List.append_assoc, List.cons_append, ← List.singleton_append, ← List.append_assoc]
    exact h

theorem not_newline_of_spells {τs : List Terminal} {ws : List (List Char)} (hτs : Writable τs)
    (h : List.Forall₂ Terminal.Spells τs ws) : '\n' ∉ [' '].intercalate ws := by
  induction h with
  | nil => simp
  | @cons τ w τs ws hτ _ ih =>
    obtain ⟨hfirst, hlater⟩ := List.forall_mem_cons.1 hτs
    obtain ⟨kind, hword, -⟩ := Terminal.isWord_of_spells hfirst hτ
    cases ws with
    | nil =>
      rw [List.intercalate_singleton]
      exact hword.newline
    | cons v ws =>
      rw [List.intercalate_cons_cons]
      simp only [List.mem_append, List.mem_singleton, not_or]
      exact ⟨⟨hword.newline, by decide⟩, ih hlater⟩

theorem not_newline_of_writes {width : Nat} {rows : List Row} {lines : List (List Char)}
    (hrows : ∀ r ∈ rows, Writable r.terminals) (h : List.Forall₂ (Row.Writes width) rows lines) :
    ∀ line ∈ lines, '\n' ∉ line := by
  induction h with
  | nil => simp
  | cons hline _ ih =>
    obtain ⟨hfirst, hlater⟩ := List.forall_mem_cons.1 hrows
    refine List.forall_mem_cons.2 ⟨fun hmem => ?_, ih hlater⟩
    obtain ⟨words, hspells, rfl⟩ := hline
    rcases List.mem_append.1 hmem with hmem | hmem
    · cases List.eq_of_mem_replicate hmem
    · exact not_newline_of_spells hfirst hspells hmem

/-! ### Programs -/

theorem exists_forall₂ {α β : Type} {R : α → β → Prop} {as : List α} (h : ∀ a ∈ as, ∃ b, R a b) :
    ∃ bs, List.Forall₂ R as bs := by
  induction as with
  | nil => exact ⟨[], .nil⟩
  | cons a as ih =>
    obtain ⟨⟨b, hb⟩, hlater⟩ := List.forall_mem_cons.1 h
    obtain ⟨bs, hbs⟩ := ih hlater
    exact ⟨b :: bs, .cons hb hbs⟩

theorem exists_writes (width : Nat) {program : List Stmt} (h : Stmt.AllWellFormed program) :
    ∃ text, Writes width program text := by
  have hrows : ∀ r ∈ ofStmts 0 program, ∃ line, r.Writes width line := by
    intro r hr
    obtain ⟨-, hwritable, -⟩ := (fits_stmts 0 program h).row r hr
    obtain ⟨words, hwords⟩ := exists_forall₂ fun τ hτ => Terminal.exists_spells (hwritable τ hτ)
    exact ⟨_, words, hwords, rfl⟩
  obtain ⟨lines, hlines⟩ := exists_forall₂ hrows
  exact ⟨_, lines, hlines, rfl⟩

/-- Writing a program and reading the text brings back the program. A program that can be written,
with at most 100 blocks around each line, has texts for every positive width of indentation; and
each of them is read, as the same program up to the lines and spans of tokens. -/
theorem read_of_writes {program : List Stmt} (hformed : Stmt.AllWellFormed program)
    (hnesting : Stmt.allNesting program ≤ 100) {width : Nat} (hwidth : 0 < width) :
    (∃ text, Writes width program text) ∧
      ∀ text, Writes width program text → ∃ program', read text = .ok program' ∧
        Stmt.mapAllTokens Token.erase program' = Stmt.mapAllTokens Token.erase program := by
  refine ⟨exists_writes width hformed, ?_⟩
  rintro text ⟨lines, hlines, rfl⟩
  have hfits := fits_stmts 0 program hformed
  have hrows : ∀ r ∈ ofStmts 0 program,
      r.terminals ≠ [] ∧ Writable r.terminals ∧ r.depth ≤ maxDepth := by
    intro r hr
    obtain ⟨hne, hwritable, -, hdeep⟩ := hfits.row r hr
    exact ⟨hne, hwritable, Nat.le_trans (by omega) hnesting⟩
  have hfeeds := not_newline_of_writes (fun r hr => (hrows r hr).2.1) hlines
  -- the tokens of the text are those of the program
  have hhead : ∀ r ∈ (ofStmts 0 program).head?, r.depth ≤ 0 + 1 := by
    intro r hr
    rw [hfits.head r hr]
    exact Nat.zero_le _
  obtain ⟨herrors, htokens⟩ := scanFrom_rows hwidth hlines hrows hfits.chain hhead 0 0
  have hscan : scan (lines.flatMap (· ++ ['\n'])) =
      scanFrom (ladder width 0) 0 0 true (lines.map (⟨·, true⟩)) := by
    rw [scan, Text.lines_flatMap hfeeds]
    rfl
  have hlast : Leaves 0 [] := by simp [Leaves]
  have hlay := lay_stmts 0 program hformed hlast
  rw [List.append_nil] at hlay
  rw [hlay, List.append_assoc] at htokens
  obtain ⟨ts, es, hts, hstmts, hend⟩ := split_forall₂_append htokens
  obtain ⟨e, rfl, he⟩ := split_forall₂_singleton hend
  obtain ⟨program', hsame, hderives⟩ := rebuild_stmts program hformed hstmts
  refine ⟨program', read_eq_ok_iff.2 ⟨by rw [hscan]; exact herrors, ?_⟩, hsame⟩
  rw [hscan, hts]
  exact .program hderives he

/-- A function with a conditional that has both branches, written with two blanks a level. -/
theorem read_of_writes_nested :
    let word (kind : Kind) (s : String) : Token :=
      { kind := kind, lexeme := s, line := 0, span := .empty 0 }
    let name := word .identifier
    let limit := Expr.constant (.number (Number.ofDecimalText "1.5".toList))
    let program : List Stmt :=
      [.define (name "f") [name "x"]
        [.branch (word .ifWord "if")
            (.binary .greater (word .greater ">") (.variable (name "x")) limit)
            [.returnWith (word .returnWord "return")
              (.unary .negate (word .minus "-") (.variable (name "x")))]
            (.block [.change (name "y") (.constant (.text "a b"))])]]
    let lines := ["define f ( accept x )", "  if x > 1.5", "    return with - x", "  otherwise",
      "    change y = \"a b\""]
    let text := (lines.map String.toList).flatMap (· ++ ['\n'])
    Stmt.AllWellFormed program ∧ Stmt.allNesting program ≤ 100 ∧ 0 < 2 ∧ Writes 2 program text ∧
      ∃ program', read text = .ok program' ∧
        Stmt.mapAllTokens Token.erase program' = Stmt.mapAllTokens Token.erase program := by
  intro word name limit program lines text
  have hname : ∀ s ∈ ["f", "x", "y"], (name s).IsName :=
    fun s hs => ⟨rfl, (show ∀ s ∈ ["f", "x", "y"], Piece.IsName s by decide) s hs, rfl⟩
  have hdecimal : Piece.IsDecimal "1.5".toList :=
    .inr ⟨['1'], ['5'], ⟨List.cons_ne_nil _ _, List.forall_mem_singleton.2 rfl⟩,
      ⟨List.cons_ne_nil _ _, List.forall_mem_singleton.2 rfl⟩, rfl⟩
  have htext : Constant.Writable (.text "a b") := ⟨by decide, by decide⟩
  have hcond : Expr.WellFormed
      (.binary .greater (word .greater ">") (.variable (name "x")) limit) :=
    ⟨⟨⟨_, .greater, rfl, by decide, rfl⟩, by decide, by decide⟩, hname "x" (by decide),
      "1.5".toList, hdecimal, rfl⟩
  have hformed : Stmt.AllWellFormed program :=
    ⟨⟨hname "f" (by decide), by simpa using hname "x" (by decide), by decide, by simp,
      ⟨⟨rfl, by decide, rfl⟩, hcond, by simp,
        ⟨⟨⟨rfl, by decide, rfl⟩, ⟨_, .minus, rfl, by decide, rfl⟩, by decide,
          hname "x" (by decide)⟩, trivial⟩,
        by simp, ⟨hname "y" (by decide), htext⟩, trivial⟩, trivial⟩, trivial⟩
  have hwrites : Writes 2 program text := by
    have hword : ∀ p ∈ Kind.words, Terminal.Spells (.word p.2) p.1.toList := by
      intro p hp
      rwa [Terminal.Spells, String.ofList_toList]
    refine ⟨lines.map String.toList, ?_, rfl⟩
    refine .cons ⟨["define", "f", "(", "accept", "x", ")"].map String.toList, ?_, rfl⟩
      (.cons ⟨["if", "x", ">", "1.5"].map String.toList, ?_, rfl⟩
        (.cons ⟨["return", "with", "-", "x"].map String.toList, ?_, rfl⟩
          (.cons ⟨["otherwise"].map String.toList, ?_, rfl⟩
            (.cons ⟨["change", "y", "=", "\"a b\""].map String.toList, ?_, rfl⟩ .nil))))
    · exact .cons (hword ("define", _) (by decide)) (.cons rfl (.cons (hword ("(", _) (by decide))
        (.cons (hword ("accept", _) (by decide)) (.cons rfl (.cons (hword (")", _) (by decide))
          .nil)))))
    · exact .cons rfl (.cons rfl (.cons rfl (.cons ⟨hdecimal, rfl⟩ .nil)))
    · exact .cons rfl (.cons (hword ("with", _) (by decide)) (.cons rfl (.cons rfl .nil)))
    · exact .cons (hword ("otherwise", _) (by decide)) .nil
    · exact .cons (hword ("change", _) (by decide)) (.cons rfl (.cons (hword ("=", _) (by decide))
        (.cons rfl .nil)))
  exact ⟨hformed, by decide, by decide, hwrites,
    (read_of_writes hformed (by decide) (by decide)).2 text hwrites⟩

end Rendering

end Offside
