import Offside.Proofs.Grammar.Taking

/-!
# Bounds of parsers

Parsers carry bounds for their loops and for their nesting. Each round of a loop takes a token and
each nesting starts with one, so a bound that is greater than the number of tokens ahead is never used
up: with any other such bound the parser does the same.

* `Parser.Agree`: parsers that do the same before less than a number of tokens;
* `Grammar.agree_expression`, `Grammar.agree_statement`, `Grammar.agree_program`: bounds do not
  matter;
* `Grammar.program_ends`: a program is read to its end, whatever it holds.
-/

namespace Offside

namespace Parser

variable {α β : Type} {last : Token} {k n : Nat} {ts us : List Token} {t : Token}

/-! ### Parsers that do the same -/

/-- Two parsers that do the same before less than `n` tokens. -/
def Agree (last : Token) (n : Nat) (p p' : Parser α) : Prop :=
  ∀ ts, ts.length < n → p last ts = p' last ts

theorem Agree.refl (p : Parser α) : Agree last n p p := fun _ _ => rfl

theorem Agree.mono {p p' : Parser α} {m : Nat} (h : Agree last n p p') (hm : m ≤ n) :
    Agree last m p p' := fun ts hts => h ts (Nat.lt_of_lt_of_le hts hm)

theorem agree_zero {p p' : Parser α} : Agree last 0 p p' := fun _ hts => absurd hts (Nat.not_lt_zero _)

/-- Before no token at all there is one case. -/
theorem Agree.of_nil {p p' : Parser α} (hn : n ≤ 1) (h : p last [] = p' last []) :
    Agree last n p p' := by
  intro ts hts
  obtain rfl : ts = [] := List.length_eq_zero_iff.1 (by omega)
  exact h

theorem bind_congr {p p' : Parser α} {f f' : α → Parser β} (hp : p last ts = p' last ts)
    (hf : ∀ a, (p last ts).outcome = .ok a →
      f a last (p last ts).rest = f' a last (p last ts).rest) :
    (p >>= f) last ts = (p' >>= f') last ts := by
  rcases hr : p last ts with ⟨outcome, notes, rest⟩
  rw [hr] at hp hf
  cases outcome with
  | error d => rw [bind_of_error hr, bind_of_error hp.symm]
  | ok a => rw [bind_of_ok hr, bind_of_ok hp.symm, hf a rfl]

/-- What comes after a parser has fewer tokens before it by as many as the parser takes. -/
theorem Agree.bind {p p' : Parser α} {f f' : α → Parser β} (hp : Agree last n p p')
    (htakes : Takes last k p) (hf : ∀ a, Agree last (n - k) (f a) (f' a)) :
    Agree last n (p >>= f) (p' >>= f') := by
  intro ts hts
  refine bind_congr (hp ts hts) fun a ha => hf a _ ?_
  have hlength := (htakes ts).taken a ha
  omega

theorem Agree.ite {c : Prop} [Decidable c] {p p' q q' : Parser α} (hp : Agree last n p p')
    (hq : Agree last n q q') : Agree last n (if c then p else q) (if c then p' else q') := by
  split
  · exact hp
  · exact hq

/-- Two parsers that look at the next token first. -/
theorem Agree.peek {f f' : Token → Parser β} (hend : 0 < n → f last last [] = f' last last [])
    (h : ∀ t us, us.length + 1 < n → f t last (t :: us) = f' t last (t :: us)) :
    Agree last n (peek >>= f) (peek >>= f') := by
  intro ts hts
  rw [peek_bind, peek_bind]
  cases ts with
  | nil => exact hend hts
  | cons t us => exact h t us hts

theorem advance_bind (f : Token → Parser β) (t : Token) (us : List Token) :
    (advance >>= f) last (t :: us) = f t last us := rfl

theorem accept_bind_of_kind {kind : Kind} (f : Bool → Parser β) (ht : t.kind = kind) :
    (accept kind >>= f) last (t :: us) = f true last us :=
  bind_of_ok (show accept kind last (t :: us) = ⟨.ok true, [], us⟩ from if_pos ht)

theorem accept_bind_of_ne {kind : Kind} (f : Bool → Parser β) (ht : (ts.headD last).kind ≠ kind) :
    (accept kind >>= f) last ts = f false last ts :=
  bind_of_ok (show accept kind last ts = ⟨.ok false, [], ts⟩ from if_neg ht)

/-- A token that is taken only if it is there. -/
theorem Agree.accept (hlast : last.kind = .endOfFile) {kind : Kind} (hkind : kind ≠ .endOfFile)
    {f f' : Bool → Parser β} (htrue : Agree last (n - 1) (f true) (f' true))
    (hfalse : Agree last n (f false) (f' false)) :
    Agree last n (accept kind >>= f) (accept kind >>= f') := by
  intro ts hts
  by_cases h : (ts.headD last).kind = kind
  · obtain ⟨t, us, rfl, ht⟩ := exists_cons_of_kind hlast h hkind
    rw [accept_bind_of_kind f ht, accept_bind_of_kind f' ht]
    apply htrue
    rw [List.length_cons] at hts
    omega
  · rw [accept_bind_of_ne f h, accept_bind_of_ne f' h]
    exact hfalse ts hts

theorem Agree.expect (hlast : last.kind = .endOfFile) {kind : Kind} (hkind : kind ≠ .endOfFile)
    {what : String} {f f' : Token → Parser β} (hf : ∀ t, Agree last (n - 1) (f t) (f' t)) :
    Agree last n (expect kind what >>= f) (expect kind what >>= f') :=
  (Agree.refl _).bind (Takes.expect hlast hkind) hf

end Parser

namespace Grammar

open Offside.Parser

variable {α : Type} {last : Token} {n : Nat}

section

variable (hlast : last.kind = .endOfFile)
include hlast

/-! ### Bounds of expressions -/

theorem operands_nil {connective? : Kind → Option Connective} (hend : connective? .endOfFile = none)
    (operand : Parser Expr) (bound : Nat) (left : Expr) :
    operands connective? operand bound left last [] = ⟨.ok left, [], []⟩ := by
  cases bound with
  | zero => rfl
  | succ bound =>
    rw [operands, peek_bind]
    simp only [List.headD_nil, hlast, hend]
    rfl

theorem agree_operands {connective? : Kind → Option Connective}
    (hend : connective? .endOfFile = none) {operand operand' : Parser Expr}
    (hoperand : Agree last n operand operand') (htakes : Takes last 0 operand) {bound bound' : Nat}
    (hn : n ≤ bound + 1) (hn' : n ≤ bound' + 1) (left : Expr) :
    Agree last n (operands connective? operand bound left)
      (operands connective? operand' bound' left) := by
  have hnil : operands connective? operand bound left last [] =
      operands connective? operand' bound' left last [] := by
    rw [operands_nil hlast hend, operands_nil hlast hend]
  induction bound generalizing n bound' left with
  | zero => exact .of_nil hn hnil
  | succ bound ih =>
    cases bound' with
    | zero => exact .of_nil hn' hnil
    | succ bound' =>
      refine Agree.peek (fun _ => hnil) fun t us hus => ?_
      cases connective? t.kind with
      | none => rfl
      | some c =>
        dsimp only
        rw [advance_bind, advance_bind]
        have hless := hoperand.mono (Nat.sub_le n 1)
        refine (hless.bind htakes fun right => ?_) us (by omega)
        refine ih hless (by omega) (by omega) _ ?_
        rw [operands_nil hlast hend, operands_nil hlast hend]

theorem agree_levels {operand operand' : Parser Expr} (hoperand : Agree last n operand operand')
    (htakes : Takes last 1 operand) {bound bound' : Nat} (hn : n ≤ bound + 1) (hn' : n ≤ bound' + 1)
    {ls : List (Kind → Option Connective)} (hls : ∀ c ∈ ls, c .endOfFile = none) :
    Agree last n (ls.foldr (level bound) operand) (ls.foldr (level bound') operand') := by
  induction ls with
  | nil => exact hoperand
  | cons l ls ih =>
    obtain ⟨hl, hls⟩ := List.forall_mem_cons.1 hls
    have hinner : Takes last 0 (ls.foldr (level bound) operand) :=
      (takes_levels hlast htakes bound hls).mono (Nat.zero_le _)
    exact (ih hls).bind hinner fun left => agree_operands hlast hl (ih hls) hinner hn hn' left

theorem unary_nil (operand : Parser Expr) (bound : Nat) :
    unary operand bound last [] = operand last [] := by
  cases bound with
  | zero => rfl
  | succ bound =>
    rw [unary, peek_bind]
    simp only [List.headD_nil, hlast, unary?]

theorem agree_unary {operand operand' : Parser Expr} (hoperand : Agree last n operand operand')
    (htakes : Takes last 1 operand) {bound bound' : Nat} (hn : n ≤ bound + 1)
    (hn' : n ≤ bound' + 1) : Agree last n (unary operand bound) (unary operand' bound') := by
  by_cases hzero : n = 0
  · subst hzero
    exact agree_zero
  have hnil : unary operand bound last [] = unary operand' bound' last [] := by
    rw [unary_nil hlast, unary_nil hlast]
    exact hoperand [] (Nat.pos_of_ne_zero hzero)
  induction bound generalizing n bound' with
  | zero => exact .of_nil hn hnil
  | succ bound ih =>
    cases bound' with
    | zero => exact .of_nil hn' hnil
    | succ bound' =>
      refine Agree.peek (fun _ => hnil) fun t us hus => ?_
      cases unary? t.kind with
      | none => exact hoperand (t :: us) hus
      | some op =>
        dsimp only
        rw [advance_bind, advance_bind]
        have hless : n - 1 ≠ 0 := by omega
        have hrest : Agree last (n - 1) (unary operand bound) (unary operand' bound') := by
          refine ih (hoperand.mono (Nat.sub_le n 1)) (by omega) (by omega) hless ?_
          rw [unary_nil hlast, unary_nil hlast]
          exact hoperand [] (Nat.pos_of_ne_zero hzero)
        exact hrest.bind (takes_unary hlast htakes bound) (fun _ => .refl _) us (by omega)

theorem agree_arguments {inner inner' : Parser Expr} (hinner : Agree last n inner inner')
    (htakes : Takes last 1 inner) {bound bound' : Nat} (hn : n ≤ bound) (hn' : n ≤ bound')
    (count : Nat) : Agree last n (arguments inner bound count) (arguments inner' bound' count) := by
  induction bound generalizing n bound' count with
  | zero =>
    obtain rfl : n = 0 := Nat.le_zero.1 hn
    exact agree_zero
  | succ bound ih =>
    cases bound' with
    | zero =>
      obtain rfl : n = 0 := Nat.le_zero.1 hn'
      exact agree_zero
    | succ bound' =>
      have hrest : Agree last n (do
            let arg ← inner
            if ← accept .comma then return arg :: (← arguments inner bound (count + 1))
            else return [arg])
          (do
            let arg ← inner'
            if ← accept .comma then return arg :: (← arguments inner' bound' (count + 1))
            else return [arg]) := by
        refine hinner.bind htakes fun arg => ?_
        refine Agree.accept hlast (by decide) ?_ (.refl _)
        have hmore : Agree last (n - 1 - 1) (arguments inner bound (count + 1))
            (arguments inner' bound' (count + 1)) :=
          ih (hinner.mono (by omega)) (by omega) (by omega) (count + 1)
        exact hmore.bind (takes_arguments (htakes.mono (Nat.zero_le _)) bound (count + 1))
          fun _ => .refl _
      rw [arguments, arguments]
      exact Agree.ite ((Agree.refl _).bind Takes.note fun _ => hrest) hrest

theorem agree_argumentList {inner inner' : Parser Expr} (hinner : Agree last n inner inner')
    (htakes : Takes last 1 inner) {bound bound' : Nat} (hn : n ≤ bound) (hn' : n ≤ bound') :
    Agree last n (argumentList inner bound) (argumentList inner' bound') :=
  (Agree.refl _).bind Takes.check fun _ =>
    Agree.ite (.refl _) (agree_arguments hlast hinner htakes hn hn' 0)

theorem calls_nil (inner : Parser Expr) (bound rounds : Nat) (callee : Expr) :
    calls inner bound rounds callee last [] = ⟨.ok callee, [], []⟩ := by
  cases rounds with
  | zero => rfl
  | succ rounds =>
    have hne : (List.headD [] last).kind ≠ .leftParen := by
      rw [List.headD_nil, hlast]
      nofun
    rw [calls, accept_bind_of_ne _ hne]
    rfl

theorem agree_calls {inner inner' : Parser Expr} (hinner : Agree last (n - 1) inner inner')
    (htakes : Takes last 1 inner) {bound bound' rounds rounds' : Nat} (hn : n ≤ bound + 1)
    (hn' : n ≤ bound' + 1) (hr : n ≤ rounds + 1) (hr' : n ≤ rounds' + 1) (callee : Expr) :
    Agree last n (calls inner bound rounds callee) (calls inner' bound' rounds' callee) := by
  have hnil : ∀ callee, calls inner bound rounds callee last [] =
      calls inner' bound' rounds' callee last [] := by
    intro callee
    rw [calls_nil hlast, calls_nil hlast]
  induction rounds generalizing n rounds' callee with
  | zero => exact .of_nil hr (hnil callee)
  | succ rounds ih =>
    cases rounds' with
    | zero => exact .of_nil hr' (hnil callee)
    | succ rounds' =>
      rw [calls, calls]
      refine Agree.accept hlast (by decide) ?_ (.refl _)
      have hlist : Agree last (n - 1) (argumentList inner bound) (argumentList inner' bound') :=
        agree_argumentList hlast hinner htakes (by omega) (by omega)
      have hlistTakes : Takes last 0 (argumentList inner bound) :=
        Takes.check.bind fun _ => Takes.ite (fun _ => Takes.pure) fun _ =>
          takes_arguments (htakes.mono (Nat.zero_le _)) bound 0
      refine hlist.bind hlistTakes fun args => Agree.expect hlast (by decide) fun paren => ?_
      refine ih (n := n - 1 - 0 - 1) (hinner.mono (by omega)) (by omega) (by omega) (by omega)
        (by omega) _ ?_
      intro callee
      rw [calls_nil hlast, calls_nil hlast]

theorem agree_primary {inner inner' : Parser Expr} (hinner : Agree last (n - 1) inner inner')
    (htakes : Takes last 1 inner) : Agree last n (primary inner) (primary inner') := by
  refine Agree.peek (fun _ => ?_) fun t us hus => ?_
  · simp only [hlast]
  · cases t.kind with
    | leftParen =>
      dsimp only
      rw [advance_bind, advance_bind]
      exact hinner.bind htakes (fun _ => .refl _) us (by omega)
    | _ => rfl

/-- Bounds greater than the number of tokens ahead do not matter to an expression. -/
theorem agree_expression {bound bound' : Nat} (hn : n ≤ bound) (hn' : n ≤ bound') :
    Agree last n (expression bound) (expression bound') := by
  induction bound generalizing n bound' with
  | zero =>
    obtain rfl : n = 0 := Nat.le_zero.1 hn
    exact agree_zero
  | succ bound ih =>
    cases bound' with
    | zero =>
      obtain rfl : n = 0 := Nat.le_zero.1 hn'
      exact agree_zero
    | succ bound' =>
      have hinner : Agree last (n - 1) (expression bound) (expression bound') :=
        ih (by omega) (by omega)
      have htakes := takes_expression hlast bound
      have hinnerTakes : Takes last 0 (expression bound) := htakes.mono (Nat.zero_le _)
      have hprimary : Takes last 1 (primary (expression bound)) := takes_primary hlast hinnerTakes
      have hcall : Agree last n (call (expression bound) bound) (call (expression bound') bound') :=
        (agree_primary hlast hinner htakes).bind (hprimary.mono (Nat.zero_le _)) fun callee =>
          agree_calls hlast hinner htakes hn hn' hn hn' callee
      have hcallTakes : Takes last 1 (call (expression bound) bound) :=
        hprimary.bind fun callee => takes_calls hlast hinnerTakes bound bound callee
      exact agree_levels hlast (agree_unary hlast hcall hcallTakes hn hn')
        (takes_unary hlast hcallTakes bound) hn hn' fun _ => endOfFile_of_mem_levels

end

/-! ### Rounds of a loop over statements -/

/-- One statement, kept or given up, and then the statements after it. -/
def round (statement : Parser Stmt) (loop : Parser (List Stmt)) : Parser (List Stmt) := do
  match ← recovering statement with
  | some s => return s :: (← loop)
  | none => loop

theorem recovering_congr {p p' : Parser α} {ts : List Token} (h : p last ts = p' last ts) :
    recovering p last ts = recovering p' last ts := by
  unfold recovering
  rw [h]

theorem round_congr {st st' : Parser Stmt} {loop loop' : Parser (List Stmt)} {ts : List Token}
    (hst : st last ts = st' last ts)
    (hloop : loop last (recovering st last ts).rest = loop' last (recovering st last ts).rest) :
    round st loop last ts = round st' loop' last ts := by
  refine bind_congr (recovering_congr hst) fun o _ => ?_
  cases o with
  | none => exact hloop
  | some s => exact bind_congr hloop fun _ _ => rfl

section

variable {st st' : Parser Stmt} {bound : Nat} {t : Token} {us : List Token}

/-- Where a loop over statements starts one. -/
def StartsStatement (t : Token) : Prop := t.kind ≠ .dedent ∧ t.kind ≠ .endOfFile

theorem statements_cons (ht : StartsStatement t) :
    statements st (bound + 1) last (t :: us) = round st (statements st bound) last (t :: us) :=
  statements_round ht.1 ht.2

theorem statements_stop (ht : ¬StartsStatement t) :
    statements st (bound + 1) last (t :: us) = ⟨.ok [], [], t :: us⟩ := by
  have hstop : (decide (t.kind = .dedent) || decide (t.kind = .endOfFile)) = true := by
    rw [StartsStatement] at ht
    simp only [Bool.or_eq_true, decide_eq_true_eq]
    tauto
  rw [statements, peek_bind, List.headD_cons, if_pos hstop]
  rfl

theorem program_cons (ht : StartsStatement t) :
    program st (bound + 1) last (t :: us) = round st (program st bound) last (t :: us) :=
  program_round ht.1 ht.2

theorem program_dedent (ht : t.kind = .dedent) :
    program st (bound + 1) last (t :: us) = program st bound last us := by
  rw [program, peek_bind, List.headD_cons, if_neg (by simp [ht])]
  show (if t.kind = .dedent then _ else _ : Parser (List Stmt)) last (t :: us) = _
  rw [if_pos ht]
  rfl

theorem program_stop (ht : t.kind = .endOfFile) :
    program st (bound + 1) last (t :: us) = ⟨.ok [], [], t :: us⟩ := by
  rw [program, peek_bind, List.headD_cons, if_pos ht]
  rfl

variable (hlast : last.kind = .endOfFile)
include hlast

theorem statements_nil (bound : Nat) : statements st bound last [] = ⟨.ok [], [], []⟩ := by
  cases bound with
  | zero => rfl
  | succ bound =>
    rw [statements, peek_bind, List.headD_nil, if_pos (by simp [hlast])]
    rfl

theorem program_nil (bound : Nat) : program st bound last [] = ⟨.ok [], [], []⟩ := by
  cases bound with
  | zero => rfl
  | succ bound =>
    rw [program, peek_bind, List.headD_nil, if_pos hlast]
    rfl

/-! ### Bounds of statements -/

theorem agree_statements (hst : Agree last n st st') (htakes : Takes last 1 st) {bound' : Nat}
    (hn : n ≤ bound + 1) (hn' : n ≤ bound' + 1) :
    Agree last n (statements st bound) (statements st' bound') := by
  have hnil : ∀ bound bound', statements st bound last [] = statements st' bound' last [] := by
    intro bound bound'
    rw [statements_nil hlast, statements_nil hlast]
  induction bound generalizing n bound' with
  | zero => exact .of_nil hn (hnil _ _)
  | succ bound ih =>
    cases bound' with
    | zero => exact .of_nil hn' (hnil _ _)
    | succ bound' =>
      intro ts hts
      cases ts with
      | nil => exact hnil _ _
      | cons t us =>
        by_cases ht : StartsStatement t
        · rw [statements_cons ht, statements_cons ht]
          refine round_congr (hst _ hts) ?_
          have hrest := (rest_recovering (htakes (t :: us)) ht.1).length_le
          rw [List.length_cons] at hts
          exact ih (hst.mono (Nat.sub_le n 1)) (by omega) (by omega) _ (by omega)
        · rw [statements_stop ht, statements_stop ht]

theorem agree_block (hst : Agree last (n - 1) st st') (htakes : Takes last 1 st)
    (hkeeps : Keeps last Stmt.marks st) {bound' : Nat} (hn : n ≤ bound + 1) (hn' : n ≤ bound' + 1) :
    Agree last n (block st bound) (block st' bound') := by
  refine (Agree.refl _).bind (takes_endOfLine hlast) fun _ => ?_
  refine Agree.accept hlast (by decide) ?_ (.refl _)
  have hbody : Agree last (n - 1 - 1) (statements st bound) (statements st' bound') :=
    agree_statements hlast (hst.mono (Nat.sub_le _ _)) htakes (by omega) (by omega)
  exact hbody.bind (keeps_statements hkeeps bound).takes fun _ => .refl _

theorem alternatives_nil (expression : Parser Expr) (body : Parser (List Stmt)) (bound : Nat) :
    alternatives expression body bound last [] = ⟨.ok .nothing, [], []⟩ := by
  cases bound with
  | zero => rfl
  | succ bound =>
    have hne : (List.headD [] last).kind ≠ .otherwiseWord := by
      rw [List.headD_nil, hlast]
      nofun
    rw [alternatives, accept_bind_of_ne _ hne]
    rfl

theorem agree_alternatives {expression expression' : Parser Expr} {body body' : Parser (List Stmt)}
    (hexpr : Agree last n expression expression') (hexprKeeps : Keeps last Expr.marks expression)
    (hbody : Agree last n body body') (hbodyKeeps : Keeps last Stmt.allMarks body) {bound' : Nat}
    (hn : n ≤ bound + 1) (hn' : n ≤ bound' + 1) :
    Agree last n (alternatives expression body bound) (alternatives expression' body' bound') := by
  have hnil : ∀ bound bound', alternatives expression body bound last [] =
      alternatives expression' body' bound' last [] := by
    intro bound bound'
    rw [alternatives_nil hlast, alternatives_nil hlast]
  induction bound generalizing n bound' with
  | zero => exact .of_nil hn (hnil _ _)
  | succ bound ih =>
    cases bound' with
    | zero => exact .of_nil hn' (hnil _ _)
    | succ bound' =>
      rw [alternatives, alternatives]
      refine Agree.accept hlast (by decide) ?_ (.refl _)
      have hexpr' : Agree last (n - 1) expression expression' := hexpr.mono (Nat.sub_le n 1)
      have hbody' : Agree last (n - 1) body body' := hbody.mono (Nat.sub_le n 1)
      have hrest : Agree last (n - 1) (alternatives expression body bound)
          (alternatives expression' body' bound') := ih hexpr' hbody' (by omega) (by omega)
      have hafter : ∀ t : Token, Agree last (n - 1) (do
            if ← accept .ifWord then
              let cond ← expression
              let stmts ← body
              return Else.branch t cond stmts (← alternatives expression body bound)
            else return Else.block (← body))
          (do
            if ← accept .ifWord then
              let cond ← expression'
              let stmts ← body'
              return Else.branch t cond stmts (← alternatives expression' body' bound')
            else return Else.block (← body')) := by
        intro t
        refine Agree.accept hlast (by decide) ?_ (hbody'.bind hbodyKeeps.takes fun _ => .refl _)
        refine (hexpr'.mono (Nat.sub_le _ _)).bind hexprKeeps.takes fun cond => ?_
        refine (hbody'.mono (Nat.sub_le _ _)).bind hbodyKeeps.takes fun stmts => ?_
        exact (hrest.mono (Nat.sub_le _ _)).bind
          (keeps_alternatives hlast hexprKeeps hbodyKeeps bound).takes fun _ => .refl _
      exact Agree.peek (hafter last []) fun t us hus => hafter t (t :: us) hus

theorem agree_parameters {bound' : Nat} (hn : n ≤ bound) (hn' : n ≤ bound') (count : Nat) :
    Agree last n (parameters bound count) (parameters bound' count) := by
  induction bound generalizing n bound' count with
  | zero =>
    obtain rfl : n = 0 := Nat.le_zero.1 hn
    exact agree_zero
  | succ bound ih =>
    cases bound' with
    | zero =>
      obtain rfl : n = 0 := Nat.le_zero.1 hn'
      exact agree_zero
    | succ bound' =>
      have hrest : Agree last n (do
            let name ← expect .identifier "a parameter name"
            if ← accept .comma then return name :: (← parameters bound (count + 1))
            else return [name])
          (do
            let name ← expect .identifier "a parameter name"
            if ← accept .comma then return name :: (← parameters bound' (count + 1))
            else return [name]) := by
        refine Agree.expect hlast (by decide) fun name => Agree.accept hlast (by decide) ?_ (.refl _)
        have hmore : Agree last (n - 1 - 1) (parameters bound (count + 1))
            (parameters bound' (count + 1)) := ih (by omega) (by omega) (count + 1)
        exact hmore.bind (keeps_parameters hlast bound (count + 1)).takes fun _ => .refl _
      rw [parameters, parameters]
      exact Agree.ite ((Agree.refl _).bind Takes.note fun _ => hrest) hrest

theorem agree_parameterList {bound' : Nat} (hn : n ≤ bound + 1) (hn' : n ≤ bound' + 1) :
    Agree last n (parameterList bound) (parameterList bound') := by
  rw [parameterList, parameterList]
  refine Agree.accept hlast (by decide) ?_ (.refl _)
  exact agree_parameters hlast (by omega) (by omega) 0

/-- A statement, from parsers that do the same of the expressions and statements inside it. -/
theorem agree_statementOf {expression expression' : Parser Expr}
    (hexpr : Agree last n expression expression') (hexprKeeps : Keeps last Expr.marks expression)
    (hst : Agree last (n - 1) st st') (htakes : Takes last 1 st) (hkeeps : Keeps last Stmt.marks st)
    {bound' : Nat} (hn : n ≤ bound + 1) (hn' : n ≤ bound' + 1) :
    Agree last n (statementOf expression st bound) (statementOf expression' st' bound') := by
  have hinner : ∀ {m}, m ≤ n → Agree last m expression expression' := hexpr.mono
  have hblock : ∀ {m}, m ≤ n → Agree last m (block st bound) (block st' bound') := fun hm =>
    agree_block hlast (hst.mono (Nat.sub_le_sub_right hm 1)) htakes hkeeps (by omega) (by omega)
  have hblockKeeps := keeps_block hlast hkeeps bound
  have hstatement : Agree last n (expressionStatement expression) (expressionStatement expression') :=
    hexpr.bind hexprKeeps.takes fun _ => .refl _
  refine Agree.peek (fun hpos => ?_) fun t us hus => ?_
  · simp only [hlast]
    exact hstatement [] hpos
  · -- every other statement starts with a word, which is taken
    have hrest : us.length < n - 1 := by omega
    cases t.kind with
    | changeWord =>
      dsimp only
      rw [change, change, advance_bind, advance_bind]
      refine Agree.bind (hinner (Nat.sub_le n 1)) hexprKeeps.takes (fun target => ?_) us hrest
      refine Agree.expect hlast (by decide) fun equal => ?_
      exact (hinner (by omega)).bind hexprKeeps.takes fun value => .refl _
    | createWord =>
      dsimp only
      rw [create, create, advance_bind, advance_bind]
      refine Agree.expect hlast (by decide) (fun name => ?_) us hrest
      refine Agree.expect hlast (by decide) fun _ => ?_
      exact (hinner (by omega)).bind hexprKeeps.takes fun value => .refl _
    | defineWord =>
      dsimp only
      rw [define, define, advance_bind, advance_bind]
      refine Agree.expect hlast (by decide) (fun name => ?_) us hrest
      refine Agree.expect hlast (by decide) fun _ => ?_
      refine (agree_parameterList hlast (by omega) (by omega)).bind
        (keeps_parameterList hlast bound).takes fun params => ?_
      refine Agree.expect hlast (by decide) fun _ => ?_
      exact (hblock (by omega)).bind hblockKeeps.takes fun _ => .refl _
    | ifWord =>
      dsimp only
      rw [conditional, conditional, advance_bind, advance_bind]
      have hfurther : Agree last (n - 1) (alternatives expression (block st bound) bound)
          (alternatives expression' (block st' bound') bound') :=
        agree_alternatives hlast (hinner (by omega)) hexprKeeps (hblock (by omega)) hblockKeeps
          (by omega) (by omega)
      refine Agree.bind (hinner (Nat.sub_le n 1)) hexprKeeps.takes (fun cond => ?_) us hrest
      refine (hblock (by omega)).bind hblockKeeps.takes fun body => ?_
      exact hfurther.bind (keeps_alternatives hlast hexprKeeps hblockKeeps bound).takes
        fun _ => .refl _
    | repeatWord =>
      dsimp only
      rw [repetition, repetition, advance_bind, advance_bind]
      refine Agree.accept hlast (by decide) ?_ ?_ us hrest
      · refine (hinner (by omega)).bind hexprKeeps.takes fun cond => ?_
        exact (hblock (by omega)).bind hblockKeeps.takes fun _ => .refl _
      · refine (hinner (by omega)).bind hexprKeeps.takes fun count => ?_
        refine Agree.expect hlast (by decide) fun _ => ?_
        exact (hblock (by omega)).bind hblockKeeps.takes fun _ => .refl _
    | returnWord =>
      dsimp only
      rw [giveBack, giveBack, advance_bind, advance_bind]
      refine Agree.accept hlast (by decide) ?_ ?_ us hrest
      · exact (hinner (by omega)).bind hexprKeeps.takes fun value => .refl _
      · exact .refl _
    | indent => rfl
    | _ => exact hstatement (t :: us) hus

/-- Bounds greater than the number of tokens ahead do not matter to a statement. -/
theorem agree_statement {bound bound' : Nat} (hn : n ≤ bound) (hn' : n ≤ bound') :
    Agree last n (statement bound) (statement bound') := by
  induction bound generalizing n bound' with
  | zero =>
    obtain rfl : n = 0 := Nat.le_zero.1 hn
    exact agree_zero
  | succ bound ih =>
    cases bound' with
    | zero =>
      obtain rfl : n = 0 := Nat.le_zero.1 hn'
      exact agree_zero
    | succ bound' =>
      exact agree_statementOf hlast (agree_expression hlast hn hn') (keeps_expression hlast _)
        (ih (by omega) (by omega)) (takes_statement hlast bound) (keeps_statement hlast bound) hn hn'

/-! ### The loop of a program -/

theorem agree_program (hst : Agree last n st st') (htakes : Takes last 1 st) {bound bound' : Nat}
    (hn : n ≤ bound + 1) (hn' : n ≤ bound' + 1) :
    Agree last n (program st bound) (program st' bound') := by
  have hnil : ∀ bound bound', program st bound last [] = program st' bound' last [] := by
    intro bound bound'
    rw [program_nil hlast, program_nil hlast]
  induction bound generalizing n bound' with
  | zero => exact .of_nil hn (hnil _ _)
  | succ bound ih =>
    cases bound' with
    | zero => exact .of_nil hn' (hnil _ _)
    | succ bound' =>
      intro ts hts
      cases ts with
      | nil => exact hnil _ _
      | cons t us =>
        have hless : us.length < n - 1 := by
          rw [List.length_cons] at hts
          omega
        have hrest : Agree last (n - 1) (program st bound) (program st' bound') :=
          ih (hst.mono (Nat.sub_le n 1)) (by omega) (by omega)
        by_cases hend : t.kind = .endOfFile
        · rw [program_stop hend, program_stop hend]
        · by_cases hdedent : t.kind = .dedent
          · rw [program_dedent hdedent, program_dedent hdedent]
            exact hrest us hless
          · rw [program_cons ⟨hdedent, hend⟩, program_cons ⟨hdedent, hend⟩]
            refine round_congr (hst _ hts) (hrest _ ?_)
            have := (rest_recovering (htakes (t :: us)) hdedent).length_le
            omega

omit hlast in
theorem exists_recovering {α : Type} (p : Parser α) (last : Token) (ts : List Token) :
    ∃ o notes, recovering p last ts = ⟨.ok o, notes, (recovering p last ts).rest⟩ := by
  unfold recovering
  rcases p last ts with ⟨outcome, notes, rest⟩
  cases outcome with
  | ok a => exact ⟨_, _, rfl⟩
  | error d => exact ⟨_, _, rfl⟩

/-- A program is read to its end, whatever it holds. -/
theorem program_ends (htakes : Takes last 1 st) {bound : Nat} {ts : List Token}
    (hts : ts.length ≤ bound) (hends : ∀ t ∈ ts, t.kind ≠ .endOfFile) :
    ∃ ss notes, program st bound last ts = ⟨.ok ss, notes, []⟩ := by
  induction bound generalizing ts with
  | zero =>
    obtain rfl : ts = [] := List.length_eq_zero_iff.1 (Nat.le_zero.1 hts)
    exact ⟨_, _, program_nil hlast 0⟩
  | succ bound ih =>
    cases ts with
    | nil => exact ⟨_, _, program_nil hlast _⟩
    | cons t us =>
      obtain ⟨hend, hus⟩ := List.forall_mem_cons.1 hends
      have hlength : us.length ≤ bound := Nat.le_of_succ_le_succ hts
      by_cases hdedent : t.kind = .dedent
      · rw [program_dedent hdedent]
        exact ih hlength hus
      · rw [program_cons ⟨hdedent, hend⟩, round]
        have hsuffix := rest_recovering (htakes (t :: us)) hdedent
        obtain ⟨o, notes, hreply⟩ := exists_recovering st last (t :: us)
        obtain ⟨ss, more, hmore⟩ := ih (Nat.le_trans hsuffix.length_le hlength)
          fun v hv => hus v (hsuffix.subset hv)
        rw [bind_of_ok hreply]
        cases o with
        | none =>
          refine ⟨ss, notes ++ more, ?_⟩
          simp only [hmore]
        | some s =>
          refine ⟨s :: ss, notes ++ (more ++ []), ?_⟩
          simp only [bind_of_ok hmore]
          rfl

end

end Grammar

end Offside
