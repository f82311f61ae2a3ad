import Offside.Proofs.Compiling
import Offside.Proofs.Grammar.Relabeling
import Offside.Proofs.Transport

/-!
# Parsing tokens that are carried elsewhere

A parser looks at kinds, lexemes and literals only. From tokens that are carried to other places it
reads the same tree, with its tokens carried along, and reports the same faults, where the tokens at
fault are carried. That is so of malformed streams as well.

* `Parser.Natural`: a parser that does to carried tokens what another does to the tokens;
* `Grammar.natural_expression`, `Grammar.natural_statement`: the parsers of the grammar do;
* `Grammar.parse_transport`, `Grammar.read_transport`: whole streams, and texts.
-/

namespace Offside

variable {α β : Type} {T : Transport}

/-- An answer carried elsewhere, given what that does to its value. -/
def Reply.transport (T : Transport) (h : α → α) (r : Reply α) : Reply α :=
  ⟨match r.outcome with
    | .ok a => .ok (h a)
    | .error e => .error (T.diagnostic e),
   r.notes.map T.diagnostic, r.rest.map T.token⟩

namespace Parser

/-- On tokens that are carried elsewhere, `q` answers as `p` does, carried along. -/
def Natural (T : Transport) (h : α → α) (p q : Parser α) : Prop :=
  ∀ last tokens, q (T.token last) (tokens.map T.token) = (p last tokens).transport T h

namespace Natural

theorem headD_map (last : Token) (tokens : List Token) :
    (tokens.map T.token).headD (T.token last) = T.token (tokens.headD last) := by
  cases tokens <;> rfl

theorem kind_headD_map (last : Token) (tokens : List Token) :
    ((tokens.map T.token).headD (T.token last)).kind = (tokens.headD last).kind := by
  rw [headD_map, T.kind_token]

theorem pure {h : α → α} {a b : α} (hb : b = h a) :
    Natural T h (Pure.pure a) (Pure.pure b) := by
  rw [hb]
  exact fun _ _ => rfl

theorem bind {h : α → α} {k : β → β} {p q : Parser α} {f g : α → Parser β}
    (hp : Natural T h p q) (hf : ∀ a, Natural T k (f a) (g (h a))) :
    Natural T k (p >>= f) (q >>= g) := by
  intro last tokens
  have hq := hp last tokens
  rcases hr : p last tokens with ⟨outcome, notes, rest⟩
  rw [hr] at hq
  cases outcome with
  | error e =>
    rw [bind_of_error hr, bind_of_error hq]
    rfl
  | ok a =>
    rw [bind_of_ok hr, bind_of_ok hq, hf a last rest]
    simp [Reply.transport]

theorem ite {h : α → α} {b : Bool} {p q p' q' : Parser α} (hp : Natural T h p p')
    (hq : Natural T h q q') :
    Natural T h (if b then p else q) (if b then p' else q') := by
  cases b with
  | true => exact hp
  | false => exact hq

theorem peek : Natural T T.token peek peek := by
  intro last tokens
  simp only [Parser.peek, Reply.transport, headD_map, List.map_nil]

theorem advance : Natural T T.token advance advance := by
  intro last tokens
  simp only [Parser.advance, Reply.transport, headD_map, List.map_nil, List.map_tail]

theorem failAt {h : α → α} (t : Token) (e : GrammarError) :
    Natural T h (failAt t e) (failAt (T.token t) e) := by
  intro last tokens
  simp only [Parser.failAt, Reply.transport, T.diagnose_token, List.map_nil]

theorem fail {h : α → α} (e : GrammarError) : Natural T h (fail e) (fail e) := by
  intro last tokens
  simp only [Parser.fail, headD_map]
  exact failAt _ e last tokens

theorem note (e : GrammarError) : Natural T id (note e) (note e) := by
  intro last tokens
  simp only [Parser.note, Reply.transport, headD_map, T.diagnose_token, List.map_cons,
    List.map_nil, id]

theorem check (kind : Kind) : Natural T id (check kind) (check kind) := by
  intro last tokens
  simp only [Parser.check, Reply.transport, kind_headD_map, List.map_nil, id]

theorem accept (kind : Kind) : Natural T id (accept kind) (accept kind) := by
  intro last tokens
  simp only [Parser.accept, kind_headD_map]
  split
  · simp only [Reply.transport, List.map_nil, List.map_tail, id]
  · rfl

theorem expect (kind : Kind) (what : String) :
    Natural T T.token (expect kind what) (expect kind what) := by
  intro last tokens
  simp only [Parser.expect, kind_headD_map]
  split
  · exact advance last tokens
  · exact fail _ last tokens

/-- A note that may come first changes nothing. -/
theorem noting {h : α → α} {c : Prop} [Decidable c] (e : GrammarError) {p q : Parser α}
    (hp : Natural T h p q) :
    Natural T h (if c then Parser.note e >>= fun _ => p else p)
      (if c then Parser.note e >>= fun _ => q else q) := by
  split
  · exact bind (note e) fun _ => hp
  · exact hp

end Natural

end Parser

namespace Grammar

open Offside.Parser

/-- A parser of expressions that keeps its trees together with their tokens. -/
abbrev NaturalExpr (T : Transport) (p : Parser Expr) : Prop :=
  Natural T (Expr.mapTokens T.token) p p

/-- A parser of statements that keeps its trees together with their tokens. -/
abbrev NaturalStmt (T : Transport) (p : Parser Stmt) : Prop :=
  Natural T (Stmt.mapTokens T.token) p p

/-! ### Expressions -/

theorem natural_operands {connective? : Kind → Option Connective} {operand : Parser Expr}
    (hop : NaturalExpr T operand) (bound : Nat) (left : Expr) :
    Natural T (Expr.mapTokens T.token) (operands connective? operand bound left)
      (operands connective? operand bound (left.mapTokens T.token)) := by
  induction bound generalizing left with
  | zero => exact .pure rfl
  | succ bound ih =>
    rw [operands, operands]
    refine .bind .peek fun token => ?_
    rw [T.kind_token]
    cases connective? token.kind with
    | none => exact .pure rfl
    | some connective =>
      refine .bind .advance fun _ => .bind hop fun right => ?_
      rw [← mapTokens_apply]
      exact ih _

theorem natural_levels {p : Parser Expr} (hp : NaturalExpr T p) (bound : Nat)
    (ls : List (Kind → Option Connective)) : NaturalExpr T (ls.foldr (level bound) p) := by
  induction ls with
  | nil => exact hp
  | cons connective? ls ih => exact .bind ih fun left => natural_operands ih bound left

theorem natural_unary {operand : Parser Expr} (hop : NaturalExpr T operand) (bound : Nat) :
    NaturalExpr T (unary operand bound) := by
  induction bound with
  | zero => exact hop
  | succ bound ih =>
    rw [NaturalExpr, unary]
    refine .bind .peek fun token => ?_
    rw [T.kind_token]
    cases unary? token.kind with
    | none => exact hop
    | some op => exact .bind .advance fun _ => .bind ih fun operand => .pure rfl

theorem natural_arguments {expression : Parser Expr} (hexpr : NaturalExpr T expression)
    (bound count : Nat) :
    Natural T (Expr.mapAllTokens T.token) (arguments expression bound count)
      (arguments expression bound count) := by
  induction bound generalizing count with
  | zero => exact .pure rfl
  | succ bound ih =>
    rw [arguments]
    refine .noting _ (.bind hexpr fun arg => .bind (.accept _) fun more => .ite ?_ (.pure rfl))
    exact .bind (ih (count + 1)) fun args => .pure rfl

theorem natural_argumentList {expression : Parser Expr} (hexpr : NaturalExpr T expression)
    (bound : Nat) :
    Natural T (Expr.mapAllTokens T.token) (argumentList expression bound)
      (argumentList expression bound) :=
  .bind (.check _) fun _ => .ite (.pure rfl) (natural_arguments hexpr bound 0)

theorem natural_calls {expression : Parser Expr} (hexpr : NaturalExpr T expression)
    (bound rounds : Nat) (callee : Expr) :
    Natural T (Expr.mapTokens T.token) (calls expression bound rounds callee)
      (calls expression bound rounds (callee.mapTokens T.token)) := by
  induction rounds generalizing callee with
  | zero => exact .pure rfl
  | succ rounds ih =>
    rw [calls, calls]
    refine .bind (.accept _) fun opened => .ite ?_ (.pure rfl)
    exact .bind (natural_argumentList hexpr bound) fun args =>
      .bind (.expect _ _) fun paren => ih (.call callee args paren)

theorem natural_literal (token : Token) :
    Natural T (Expr.mapTokens T.token)
      (do
        let _ ← advance
        match token.literal with
        | some literal => return Expr.constant (constantOf literal)
        | none => failAt token .expectedExpression)
      (do
        let _ ← advance
        match token.literal with
        | some literal => return Expr.constant (constantOf literal)
        | none => failAt (T.token token) .expectedExpression) := by
  refine .bind .advance fun _ => ?_
  cases token.literal with
  | some literal => exact .pure rfl
  | none => exact .failAt token _

theorem natural_primary {expression : Parser Expr} (hexpr : NaturalExpr T expression) :
    NaturalExpr T (primary expression) := by
  refine .bind .peek fun token => ?_
  rw [T.kind_token, T.literal_token]
  split
  · exact .bind .advance fun _ => .pure rfl
  · exact .bind .advance fun _ => .pure rfl
  · exact .bind .advance fun _ => .pure rfl
  · exact natural_literal token
  · exact natural_literal token
  · exact .bind .advance fun _ => .pure rfl
  · exact .bind .advance fun _ => .bind hexpr fun inner => .bind (.expect _ _) fun _ => .pure rfl
  · exact .fail _

/-- The parser of expressions reads carried tokens into the tree carried along. -/
theorem natural_expression (bound : Nat) : NaturalExpr T (expression bound) := by
  induction bound with
  | zero => exact .fail _
  | succ bound ih =>
    exact natural_levels (natural_unary
      (.bind (natural_primary ih) fun callee => natural_calls ih bound bound callee) bound) bound _

/-! ### Recovery -/

theorem skipBlock_map (depth : Nat) (ts : List Token) :
    skipBlock depth (ts.map T.token) = (skipBlock depth ts).map T.token := by
  induction ts generalizing depth with
  | nil => rfl
  | cons t ts ih =>
    rw [List.map_cons, skipBlock, skipBlock, T.kind_token]
    cases t.kind with
    | dedent =>
      by_cases h : depth ≤ 1
      · simp only [if_pos h]
      · simp only [if_neg h]
        exact ih _
    | _ => exact ih _

theorem skipOrphan_map (ts : List Token) :
    skipOrphan (ts.map T.token) = (skipOrphan ts).map T.token := by
  cases ts with
  | nil => rfl
  | cons t ts =>
    rw [List.map_cons, skipOrphan, skipOrphan, T.kind_token]
    split
    · exact skipBlock_map 0 (t :: ts)
    · rfl

theorem skipStatement_map (ts : List Token) :
    skipStatement (ts.map T.token) = (skipStatement ts).map T.token := by
  induction ts with
  | nil => rfl
  | cons t ts ih =>
    rw [List.map_cons, skipStatement, skipStatement, T.kind_token]
    cases t.kind with
    | dedent => rfl
    | indent => exact skipBlock_map 0 (t :: ts)
    | newline => exact skipOrphan_map ts
    | changeWord | createWord | defineWord | ifWord | repeatWord | returnWord => rfl
    | _ => exact ih

theorem synchronize_map (ts : List Token) :
    synchronize (ts.map T.token) = (synchronize ts).map T.token := by
  cases ts with
  | nil => rfl
  | cons t ts =>
    rw [List.map_cons, synchronize, synchronize, T.kind_token]
    cases t.kind with
    | dedent => rfl
    | indent => exact skipBlock_map 0 (t :: ts)
    | newline => exact skipOrphan_map ts
    | _ => exact skipStatement_map ts

theorem natural_recovering {h : α → α} {p q : Parser α} (hp : Natural T h p q) :
    Natural T (Option.map h) (recovering p) (recovering q) := by
  intro last tokens
  unfold recovering
  rw [hp last tokens]
  rcases p last tokens with ⟨outcome, notes, rest⟩
  cases outcome with
  | ok a => rfl
  | error e => simp [Reply.transport, synchronize_map]

/-! ### Statements -/

theorem natural_endOfLine : Natural T id endOfLine endOfLine :=
  .bind (.expect _ _) fun _ => .pure rfl

theorem natural_statements {statement : Parser Stmt} (hstmt : NaturalStmt T statement)
    (bound : Nat) :
    Natural T (Stmt.mapAllTokens T.token) (statements statement bound)
      (statements statement bound) := by
  induction bound with
  | zero => exact .pure rfl
  | succ bound ih =>
    rw [statements]
    refine .bind .peek fun token => ?_
    rw [T.kind_token]
    refine .ite (.pure rfl) (.bind (natural_recovering hstmt) fun o => ?_)
    cases o with
    | none => exact ih
    | some s => exact .bind ih fun ss => .pure rfl

theorem natural_block {statement : Parser Stmt} (hstmt : NaturalStmt T statement) (bound : Nat) :
    Natural T (Stmt.mapAllTokens T.token) (block statement bound) (block statement bound) := by
  refine .bind natural_endOfLine fun _ => .bind (.accept _) fun _ => .ite ?_ (.fail _)
  refine .bind (natural_statements hstmt bound) fun body => ?_
  have hempty : (Stmt.mapAllTokens T.token body).isEmpty = body.isEmpty := by
    cases body <;> rfl
  rw [hempty]
  exact .noting _ (.bind (.expect _ _) fun _ => .pure rfl)

theorem natural_change {expression : Parser Expr} (hexpr : NaturalExpr T expression) :
    NaturalStmt T (change expression) := by
  refine .bind .advance fun _ => .bind hexpr fun target => .bind (.expect _ _) fun equal =>
    .bind hexpr fun value => ?_
  cases target with
  | «variable» name => exact .bind natural_endOfLine fun _ => .pure rfl
  | _ => exact .failAt equal _

theorem natural_create {expression : Parser Expr} (hexpr : NaturalExpr T expression) :
    NaturalStmt T (create expression) :=
  .bind .advance fun _ => .bind (.expect _ _) fun _ => .bind (.expect _ _) fun _ =>
    .bind hexpr fun _ => .bind natural_endOfLine fun _ => .pure rfl

theorem natural_giveBack {expression : Parser Expr} (hexpr : NaturalExpr T expression) :
    NaturalStmt T (giveBack expression) := by
  refine .bind .advance fun _ => .bind (.accept _) fun _ => .ite ?_ ?_
  · exact .bind hexpr fun _ => .bind natural_endOfLine fun _ => .pure rfl
  · exact .bind natural_endOfLine fun _ => .pure rfl

theorem natural_expressionStatement {expression : Parser Expr}
    (hexpr : NaturalExpr T expression) : NaturalStmt T (expressionStatement expression) := by
  refine .bind hexpr fun value => ?_
  have hend : Natural T (Stmt.mapTokens T.token) (do endOfLine; return Stmt.expression value)
      (do endOfLine; return Stmt.expression (value.mapTokens T.token)) :=
    .bind natural_endOfLine fun _ => .pure rfl
  cases value with
  | «variable» name =>
    -- the missing word is named in the message, so the lexeme counts here
    refine .bind (.check _) fun _ => .ite ?_ hend
    rw [T.lexeme_token]
    exact .fail _
  | _ => exact hend

theorem natural_parameters (bound count : Nat) :
    Natural T (List.map T.token) (parameters bound count) (parameters bound count) := by
  induction bound generalizing count with
  | zero => exact .pure rfl
  | succ bound ih =>
    rw [parameters]
    refine .noting _ (.bind (.expect _ _) fun name => .bind (.accept _) fun _ =>
      .ite ?_ (.pure rfl))
    exact .bind (ih (count + 1)) fun names => .pure rfl

theorem natural_parameterList (bound : Nat) :
    Natural T (List.map T.token) (parameterList bound) (parameterList bound) :=
  .bind (.accept _) fun _ => .ite (natural_parameters bound 0) (.pure rfl)

theorem natural_define {statement : Parser Stmt} (hstmt : NaturalStmt T statement) (bound : Nat) :
    NaturalStmt T (define statement bound) :=
  .bind .advance fun _ => .bind (.expect _ _) fun _ => .bind (.expect _ _) fun _ =>
    .bind (natural_parameterList bound) fun _ => .bind (.expect _ _) fun _ =>
      .bind (natural_block hstmt bound) fun _ => .pure rfl

theorem natural_alternatives {expression : Parser Expr} {body : Parser (List Stmt)}
    (hexpr : NaturalExpr T expression) (hbody : Natural T (Stmt.mapAllTokens T.token) body body)
    (bound : Nat) :
    Natural T (Else.mapTokens T.token) (alternatives expression body bound)
      (alternatives expression body bound) := by
  induction bound with
  | zero => exact .pure rfl
  | succ bound ih =>
    rw [alternatives]
    refine .bind (.accept _) fun _ => .ite ?_ (.pure rfl)
    refine .bind .peek fun token => .bind (.accept _) fun _ => .ite ?_ ?_
    · exact .bind hexpr fun _ => .bind hbody fun _ => .bind ih fun _ => .pure rfl
    · exact .bind hbody fun _ => .pure rfl

theorem natural_conditional {expression : Parser Expr} {statement : Parser Stmt}
    (hexpr : NaturalExpr T expression) (hstmt : NaturalStmt T statement) (bound : Nat) :
    NaturalStmt T (conditional expression statement bound) :=
  .bind .advance fun _ => .bind hexpr fun _ => .bind (natural_block hstmt bound) fun _ =>
    .bind (natural_alternatives hexpr (natural_block hstmt bound) bound) fun _ => .pure rfl

theorem natural_repetition {expression : Parser Expr} {statement : Parser Stmt}
    (hexpr : NaturalExpr T expression) (hstmt : NaturalStmt T statement) (bound : Nat) :
    NaturalStmt T (repetition expression statement bound) := by
  refine .bind .advance fun _ => .bind (.accept _) fun _ => .ite ?_ ?_
  · exact .bind hexpr fun _ => .bind (natural_block hstmt bound) fun _ => .pure rfl
  · exact .bind hexpr fun _ => .bind (.expect _ _) fun _ =>
      .bind (natural_block hstmt bound) fun _ => .pure rfl

theorem natural_statementOf {expression : Parser Expr} {inner : Parser Stmt}
    (hexpr : NaturalExpr T expression) (hinner : NaturalStmt T inner) (bound : Nat) :
    NaturalStmt T (statementOf expression inner bound) := by
  refine .bind .peek fun token => ?_
  rw [T.kind_token]
  split
  · exact natural_change hexpr
  · exact natural_create hexpr
  · exact natural_define hinner bound
  · exact natural_conditional hexpr hinner bound
  · exact .fail _
  · exact natural_repetition hexpr hinner bound
  · exact natural_giveBack hexpr
  · exact natural_expressionStatement hexpr

/-- The parser of statements reads carried tokens into the tree carried along. -/
theorem natural_statement (bound : Nat) : NaturalStmt T (statement bound) := by
  induction bound with
  | zero => exact .fail _
  | succ bound ih => exact natural_statementOf (natural_expression _) ih bound

theorem natural_program {statement : Parser Stmt} (hstmt : NaturalStmt T statement)
    (bound : Nat) :
    Natural T (Stmt.mapAllTokens T.token) (program statement bound) (program statement bound) := by
  induction bound with
  | zero => exact .pure rfl
  | succ bound ih =>
    rw [program]
    refine .bind .peek fun token => ?_
    rw [T.kind_token]
    split
    · exact .pure rfl
    split
    · exact .bind .advance fun _ => ih
    · refine .bind (natural_recovering hstmt) fun o => ?_
      cases o with
      | none => exact ih
      | some s => exact .bind ih fun ss => .pure rfl

/-! ### Token streams -/

/-- A reading carried elsewhere. -/
def Reading.transport (T : Transport) (r : Reading) : Reading :=
  ⟨Stmt.mapAllTokens T.token r.stmts, r.errors.map T.diagnostic⟩

theorem isEnd_token (t : Token) : isEnd (T.token t) = isEnd t := by
  rw [isEnd, isEnd, T.kind_token]

theorem ahead_map (tokens : List Token) :
    ahead (tokens.map T.token) = (ahead tokens).map T.token := by
  have hend : (fun t => !isEnd t) ∘ T.token = fun t => !isEnd t :=
    funext fun t => congrArg _ (isEnd_token t)
  rw [ahead, ahead, List.takeWhile_map, hend]

/-- A stream with an end token is read the same when it is carried elsewhere. -/
theorem parse_transport {tokens : List Token} (hend : ∃ t ∈ tokens, isEnd t = true) :
    parse (tokens.map T.token) = (parse tokens).transport T := by
  have hlast : endToken (tokens.map T.token) = T.token (endToken tokens) := by
    have hend' : isEnd ∘ T.token = isEnd := funext isEnd_token
    obtain ⟨e, he⟩ := Option.isSome_iff_exists.1 (List.find?_isSome.2 hend)
    rw [endToken, endToken, List.find?_map, hend', he]
    rfl
  rw [parse, parse, ahead_map, hlast, List.length_map,
    natural_program (natural_statement _) _ (endToken tokens) (ahead tokens)]
  rcases program (statement _) _ (endToken tokens) (ahead tokens) with ⟨outcome, notes, rest⟩
  cases outcome with
  | ok stmts => rfl
  | error e => simp [Reply.transport, Reading.transport, Stmt.mapAllTokens]

/-- A text whose tokens are those of another one, carried elsewhere, is read as the other is. -/
theorem read_transport {text text' : List Char}
    (hscan : Layout.scan text' = (Layout.scan text).transport T) :
    read text' =
      ((read text).map (Stmt.mapAllTokens T.token)).mapError (List.map T.diagnostic) := by
  have hparse : parse ((Layout.scan text).tokens.map T.token) =
      (parse (Layout.scan text).tokens).transport T :=
    parse_transport (exists_end [] 0 0 true (Text.lines text))
  simp only [read, hscan, Scan.transport, hparse, Reading.transport, List.isEmpty_map]
  split
  · split <;> rfl
  · rfl

end Grammar

end Offside
