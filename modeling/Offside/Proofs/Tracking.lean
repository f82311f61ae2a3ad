import Offside.Grammar
import Offside.Proofs.Marks

/-!
# What parsing does with its tokens

Whatever a parser makes of its tokens, it takes them from the front, in order; the tree it answers
with keeps only tokens it has taken, in the order of the text and each in a part that its kind can
play; and the diagnostics it stops with or records are pinned to tokens it was given. This holds of
every token stream, malformed ones included.

* `Parser.Holds`: what a parser leads to, from a condition on where it starts;
* `Grammar.Kept`, `Grammar.Keeps`: marks that are tokens taken so far, and parsers whose answers keep
  only such;
* `Grammar.parse_tracks`: the facts about whole streams.
-/

namespace Offside

namespace Parser

variable {α β : Type} {last : Token}

theorem bind_of_ok {p : Parser α} {f : α → Parser β} {ts rest : List Token} {a : α}
    {notes : List Diagnostic} (h : p last ts = ⟨.ok a, notes, rest⟩) :
    (p >>= f) last ts =
      ⟨(f a last rest).outcome, notes ++ (f a last rest).notes, (f a last rest).rest⟩ := by
  show Parser.bind p f last ts = _
  unfold Parser.bind
  rw [h]

theorem bind_of_error {p : Parser α} {f : α → Parser β} {ts rest : List Token} {d : Diagnostic}
    {notes : List Diagnostic} (h : p last ts = ⟨.error d, notes, rest⟩) :
    (p >>= f) last ts = ⟨.error d, notes, rest⟩ := by
  show Parser.bind p f last ts = _
  unfold Parser.bind
  rw [h]

/-- A diagnostic of the grammar, pinned to one of several tokens. -/
def PinnedTo (tokens : List Token) (d : Diagnostic) : Prop :=
  ∃ t ∈ tokens, ∃ e, d = t.diagnose (.grammar e)

/-- A condition on where a parser stands: on the tokens taken so far and on those ahead. -/
abbrev Position := List Token → List Token → Prop

/-- From a position with `P` the parser takes tokens from the front, and answers with a value and a
position that have `Q` or stops; its diagnostics are pinned to the end token or to tokens of the
stream. -/
def Holds (last : Token) (P : Position) (p : Parser α) (Q : α → Position) : Prop :=
  ∀ past ahead, P past ahead → ∃ used, ahead = used ++ (p last ahead).rest ∧
    (∀ d ∈ (p last ahead).notes, PinnedTo (last :: (past ++ ahead)) d) ∧
    match (p last ahead).outcome with
    | .ok a => Q a (past ++ used) (p last ahead).rest
    | .error d => PinnedTo (last :: (past ++ ahead)) d

variable {P : Position} {Q : α → Position}

theorem Holds.weaken {P' : Position} {Q' : α → Position} {p : Parser α} (h : Holds last P p Q)
    (hP : ∀ past ahead, P' past ahead → P past ahead)
    (hQ : ∀ a past ahead, Q a past ahead → Q' a past ahead) : Holds last P' p Q' := by
  intro past ahead hpos
  obtain ⟨used, hused, hnotes, hout⟩ := h past ahead (hP past ahead hpos)
  refine ⟨used, hused, hnotes, ?_⟩
  cases hr : (p last ahead).outcome with
  | ok a =>
    rw [hr] at hout
    exact hQ a _ _ hout
  | error d =>
    rw [hr] at hout
    exact hout

theorem Holds.pinned {p : Parser α} (h : Holds last P p Q) {past ahead rest : List Token}
    (hpos : P past ahead) {d : Diagnostic} {notes : List Diagnostic}
    (hp : p last ahead = ⟨.error d, notes, rest⟩) : PinnedTo (last :: (past ++ ahead)) d := by
  obtain ⟨used, -, -, hout⟩ := h past ahead hpos
  rw [hp] at hout
  exact hout

theorem Holds.pure {a : α} (h : ∀ past ahead, P past ahead → Q a past ahead) :
    Holds last P (Pure.pure a : Parser α) Q := by
  intro past ahead hpos
  exact ⟨[], rfl, by simp [Pure.pure, Parser.pure], by
    simpa [Pure.pure, Parser.pure] using h past ahead hpos⟩

theorem Holds.bind {p : Parser α} {f : α → Parser β} {R : β → Position} (hp : Holds last P p Q)
    (hf : ∀ a, Holds last (Q a) (f a) R) : Holds last P (p >>= f) R := by
  intro past ahead hpos
  obtain ⟨used, hused, hnotes, hout⟩ := hp past ahead hpos
  rcases hr : p last ahead with ⟨outcome, notes, rest⟩
  rw [hr] at hused hnotes hout
  cases outcome with
  | error d =>
    rw [bind_of_error hr]
    exact ⟨used, hused, hnotes, hout⟩
  | ok a =>
    rw [bind_of_ok hr]
    obtain ⟨more, hmore, hnotes', hout'⟩ := hf a _ _ hout
    -- the stream as a whole is the same before and after `p`
    have hwhole : past ++ used ++ rest = past ++ ahead := by rw [hused, List.append_assoc]
    rw [hwhole] at hnotes' hout'
    refine ⟨used ++ more, ?_, ?_, ?_⟩
    · simp only [List.append_assoc]
      rw [← hmore]
      exact hused
    · intro d hd
      rcases List.mem_append.1 hd with hd | hd
      · exact hnotes d hd
      · exact hnotes' d hd
    · simpa only [List.append_assoc] using hout'

theorem Holds.ite {c : Prop} [Decidable c] {p q : Parser α}
    (hp : c → Holds last P p Q) (hq : ¬ c → Holds last P q Q) :
    Holds last P (if c then p else q) Q := by
  by_cases h : c
  · rw [if_pos h]
    exact hp h
  · rw [if_neg h]
    exact hq h

theorem Holds.peek :
    Holds last P peek fun t past ahead => P past ahead ∧ t = ahead.headD last := by
  intro past ahead hpos
  exact ⟨[], rfl, by simp [Parser.peek], by simpa [Parser.peek] using hpos⟩

theorem Holds.check (kind : Kind) : Holds last P (check kind) fun _ => P := by
  intro past ahead hpos
  exact ⟨[], rfl, by simp [Parser.check], by simpa [Parser.check] using hpos⟩

theorem Holds.advance {Q : Token → Position}
    (h : ∀ past t ahead, P past (t :: ahead) → Q t (past ++ [t]) ahead)
    (hend : ∀ past, P past [] → Q last past []) : Holds last P advance Q := by
  intro past ahead hpos
  cases ahead with
  | nil => exact ⟨[], rfl, by simp [Parser.advance], by simpa [Parser.advance] using hend past hpos⟩
  | cons t ahead =>
    exact ⟨[t], rfl, by simp [Parser.advance], by simpa [Parser.advance] using h past t ahead hpos⟩

theorem Holds.failAt {t : Token} {e : GrammarError}
    (h : ∀ past ahead, P past ahead → t ∈ last :: (past ++ ahead)) :
    Holds last P (failAt t e : Parser α) Q := by
  intro past ahead hpos
  exact ⟨[], rfl, by simp [Parser.failAt], t, h past ahead hpos, e, rfl⟩

theorem headD_mem (past ahead : List Token) : ahead.headD last ∈ last :: (past ++ ahead) := by
  cases ahead <;> simp

theorem Holds.fail {e : GrammarError} : Holds last P (fail e : Parser α) Q := by
  intro past ahead _
  exact ⟨[], rfl, by simp [Parser.fail, Parser.failAt], _, headD_mem past ahead, e, rfl⟩

theorem Holds.note {e : GrammarError} : Holds last P (note e) fun _ => P := by
  intro past ahead hpos
  refine ⟨[], rfl, ?_, by simpa [Parser.note] using hpos⟩
  intro d hd
  rw [List.mem_singleton.1 hd]
  exact ⟨_, headD_mem past ahead, e, rfl⟩

section

variable (hlast : last.kind = .endOfFile)
include hlast

/-- A token of a kind other than that of the end token can be taken. -/
theorem exists_cons_of_kind {ahead : List Token} {kind : Kind}
    (h : (ahead.headD last).kind = kind) (hkind : kind ≠ .endOfFile) :
    ∃ t rest, ahead = t :: rest ∧ t.kind = kind := by
  cases ahead with
  | nil => exact absurd (h.symm.trans hlast) hkind
  | cons t rest => exact ⟨t, rest, rfl, h⟩

theorem Holds.accept {kind : Kind} {Q : Bool → Position} (hkind : kind ≠ .endOfFile)
    (htrue : ∀ past t ahead, P past (t :: ahead) → t.kind = kind → Q true (past ++ [t]) ahead)
    (hfalse : ∀ past ahead, P past ahead → Q false past ahead) :
    Holds last P (accept kind) Q := by
  intro past ahead hpos
  unfold Parser.accept
  by_cases h : (ahead.headD last).kind = kind
  · obtain ⟨t, rest, rfl, ht⟩ := exists_cons_of_kind hlast h hkind
    rw [if_pos h]
    exact ⟨[t], rfl, by simp, htrue past t rest hpos ht⟩
  · rw [if_neg h]
    exact ⟨[], rfl, by simp, by simpa using hfalse past ahead hpos⟩

theorem Holds.expect {kind : Kind} {what : String} {Q : Token → Position}
    (hkind : kind ≠ .endOfFile)
    (h : ∀ past t ahead, P past (t :: ahead) → t.kind = kind → Q t (past ++ [t]) ahead) :
    Holds last P (expect kind what) Q := by
  intro past ahead hpos
  unfold Parser.expect
  by_cases hk : (ahead.headD last).kind = kind
  · obtain ⟨t, rest, rfl, ht⟩ := exists_cons_of_kind hlast hk hkind
    rw [if_pos hk]
    exact ⟨[t], rfl, by simp [Parser.advance], h past t rest hpos ht⟩
  · rw [if_neg hk]
    exact Holds.fail (Q := Q) past ahead hpos

end

end Parser

namespace Grammar

open Offside.Parser

variable {α : Type} {last : Token}

/-! ### Kept tokens -/

/-- The marks are tokens taken so far, in the same order, each in a part that its kind can play. -/
def Kept (marks : List Mark) (past : List Token) : Prop :=
  (marks.map (·.2)).Sublist past ∧ ∀ m ∈ marks, m.2.kind ∈ m.1.kinds

theorem Kept.skip {marks : List Mark} {past : List Token} (h : Kept marks past)
    (more : List Token) : Kept marks (past ++ more) :=
  ⟨h.1.trans (List.sublist_append_left past more), h.2⟩

theorem Kept.push {marks : List Mark} {past : List Token} {r : Role} {t : Token}
    (h : Kept marks past) (ht : t.kind ∈ r.kinds) : Kept (marks ++ [(r, t)]) (past ++ [t]) := by
  refine ⟨?_, ?_⟩
  · simpa using h.1
  · intro m hm
    rcases List.mem_append.1 hm with hm | hm
    · exact h.2 m hm
    · rw [List.mem_singleton.1 hm]
      exact ht

/-- The answers of a parser keep tokens that it has taken, after those kept before. -/
def Keeps (last : Token) (marks : α → List Mark) (p : Parser α) : Prop :=
  ∀ acc, Holds last (fun past _ => Kept acc past) p fun a past _ => Kept (acc ++ marks a) past

/-- A parser whose answer keeps what was kept before and nothing more. -/
theorem Keeps.pure {marks : α → List Mark} {a : α} (h : marks a = []) :
    Keeps last marks (Pure.pure a : Parser α) := by
  intro acc
  refine Holds.pure fun past ahead hkept => ?_
  rw [h, List.append_nil]
  exact hkept

/-- The tokens of an operator with its operands. -/
@[simp] theorem marks_apply (token : Token) (left right : Expr) (c : Connective) :
    (c.apply token left right).marks = left.marks ++ (.operator, token) :: right.marks := by
  cases c <;> simp [Connective.apply, Expr.marks]

section

variable (hlast : last.kind = .endOfFile)
include hlast

/-! ### Expressions -/

/-- The operators of a level are tokens that can play the part of an operator. -/
def OperatorsOnly (connective? : Kind → Option Connective) : Prop :=
  ∀ kind c, connective? kind = some c → kind ∈ Role.operator.kinds

omit hlast in
theorem operatorsOnly_of_mem_levels {connective? : Kind → Option Connective}
    (h : connective? ∈ levels) : OperatorsOnly connective? := by
  simp only [levels, List.mem_cons, List.not_mem_nil, or_false] at h
  rcases h with rfl | rfl | rfl | rfl | rfl <;> intro kind c hc <;> cases kind <;>
    simp_all [disjunction?, conjunction?, comparison?, additive?, multiplicative?, Role.kinds]

/-- Taking a token that was looked at, in a part that its kind can play. -/
theorem holds_advance_peeked {r : Role} {token : Token} {acc : List Mark}
    (hkind : token.kind ∈ r.kinds) (hrole : Kind.endOfFile ∉ r.kinds) :
    Holds last (fun past ahead => Kept acc past ∧ token = ahead.headD last) advance
      fun _ past _ => Kept (acc ++ [(r, token)]) past := by
  refine Holds.advance ?_ ?_
  · rintro past t ahead ⟨hkept, rfl⟩
    exact hkept.push hkind
  · rintro past ⟨-, rfl⟩
    exact absurd (hlast ▸ hkind) hrole

omit hlast in
/-- Taking a token and letting it go. -/
theorem holds_advance_skip {acc : List Mark} :
    Holds last (fun past _ => Kept acc past) advance fun _ past _ => Kept acc past :=
  Holds.advance (fun _ t _ hkept => hkept.skip [t]) fun _ hkept => hkept

theorem holds_operands {connective? : Kind → Option Connective} {operand : Parser Expr}
    (hops : OperatorsOnly connective?) (hoperand : Keeps last Expr.marks operand) (bound : Nat)
    (left : Expr) (acc : List Mark) :
    Holds last (fun past _ => Kept (acc ++ left.marks) past)
      (operands connective? operand bound left) fun e past _ => Kept (acc ++ e.marks) past := by
  induction bound generalizing left with
  | zero => exact Holds.pure fun _ _ h => h
  | succ bound ih =>
    rw [operands]
    refine Holds.bind Holds.peek fun token => ?_
    cases hc : connective? token.kind with
    | none => exact Holds.pure fun _ _ h => h.1
    | some c =>
      refine Holds.bind (holds_advance_peeked hlast (hops _ _ hc) (by decide)) fun _ => ?_
      refine Holds.bind (hoperand _) fun right => ?_
      refine (ih (c.apply token left right)).weaken (fun past _ h => ?_) fun _ _ _ h => h
      simpa using h

theorem keeps_level {connective? : Kind → Option Connective} {operand : Parser Expr}
    (hops : OperatorsOnly connective?) (hoperand : Keeps last Expr.marks operand) (bound : Nat) :
    Keeps last Expr.marks (level bound connective? operand) := by
  intro acc
  exact Holds.bind (hoperand acc) fun left => holds_operands hlast hops hoperand bound left acc

theorem keeps_levels {operand : Parser Expr} (hoperand : Keeps last Expr.marks operand)
    (bound : Nat) : Keeps last Expr.marks (levels.foldr (level bound) operand) := by
  have h : ∀ ls : List (Kind → Option Connective), (∀ c ∈ ls, OperatorsOnly c) →
      Keeps last Expr.marks (ls.foldr (level bound) operand) := by
    intro ls
    induction ls with
    | nil => exact fun _ => hoperand
    | cons l ls ih =>
      intro hall
      exact keeps_level hlast (hall l (by simp)) (ih fun c hc => hall c (by simp [hc])) bound
  exact h levels fun c hc => operatorsOnly_of_mem_levels hc

theorem keeps_unary {operand : Parser Expr} (hoperand : Keeps last Expr.marks operand)
    (bound : Nat) : Keeps last Expr.marks (unary operand bound) := by
  induction bound with
  | zero => exact hoperand
  | succ bound ih =>
    intro acc
    rw [unary]
    refine Holds.bind Holds.peek fun token => ?_
    cases hu : unary? token.kind with
    | none => exact (hoperand acc).weaken (fun _ _ h => h.1) fun _ _ _ h => h
    | some op =>
      have hkind : token.kind ∈ Role.operator.kinds := by
        cases hk : token.kind <;> simp_all [unary?, Role.kinds]
      refine Holds.bind (holds_advance_peeked hlast hkind (by decide)) fun _ => ?_
      refine Holds.bind (ih _) fun e => Holds.pure fun past _ h => ?_
      simpa [Expr.marks] using h

theorem keeps_arguments {expression : Parser Expr} (hexpr : Keeps last Expr.marks expression)
    (bound count : Nat) : Keeps last Expr.allMarks (arguments expression bound count) := by
  induction bound generalizing count with
  | zero => exact Keeps.pure rfl
  | succ bound ih =>
    intro acc
    rw [arguments]
    -- the note about a list that is too long comes before the argument, if it comes
    have hrest : Holds last (fun past _ => Kept acc past) (do
        let arg ← expression
        if ← accept .comma then return arg :: (← arguments expression bound (count + 1))
        else return [arg]) fun args past _ => Kept (acc ++ Expr.allMarks args) past := by
      refine Holds.bind (hexpr acc) fun arg => ?_
      refine Holds.bind (Holds.accept hlast (Q := fun _ past _ => Kept (acc ++ arg.marks) past)
        (by decide) (fun _ t _ h _ => h.skip [t]) fun _ _ h => h) fun more => ?_
      refine Holds.ite (fun _ => ?_) fun _ => ?_
      · refine Holds.bind (ih (count + 1) _) fun args => Holds.pure fun past _ h => ?_
        simpa [Expr.allMarks] using h
      · refine Holds.pure fun past _ h => ?_
        simpa [Expr.allMarks] using h
    refine Holds.ite (fun _ => ?_) fun _ => hrest
    exact Holds.bind Holds.note fun _ => hrest

theorem keeps_argumentList {expression : Parser Expr} (hexpr : Keeps last Expr.marks expression)
    (bound : Nat) : Keeps last Expr.allMarks (argumentList expression bound) := by
  intro acc
  refine Holds.bind (Holds.check _) fun closed => Holds.ite (fun _ => ?_) fun _ => ?_
  · exact Keeps.pure rfl acc
  · exact keeps_arguments hlast hexpr bound 0 acc

theorem holds_calls {expression : Parser Expr} (hexpr : Keeps last Expr.marks expression)
    (bound rounds : Nat) (callee : Expr) (acc : List Mark) :
    Holds last (fun past _ => Kept (acc ++ callee.marks) past)
      (calls expression bound rounds callee) fun e past _ => Kept (acc ++ e.marks) past := by
  induction rounds generalizing callee with
  | zero => exact Holds.pure fun _ _ h => h
  | succ rounds ih =>
    rw [calls]
    refine Holds.bind (Holds.accept hlast (Q := fun _ past _ => Kept (acc ++ callee.marks) past)
      (by decide) (fun _ t _ h _ => h.skip [t]) fun _ _ h => h) fun opened => ?_
    refine Holds.ite (fun _ => ?_) fun _ => Holds.pure fun _ _ h => h
    refine Holds.bind (keeps_argumentList hlast hexpr bound _) fun args => ?_
    refine Holds.bind (Holds.expect hlast (Q := fun paren past _ =>
      Kept (acc ++ (Expr.call callee args paren).marks) past) (by decide) ?_) fun paren => ih _
    intro past t _ h hkind
    have hpush := h.push (r := .closing) (t := t) (by simp [hkind, Role.kinds])
    simpa [Expr.marks] using hpush

omit hlast in
theorem holds_constant {value : Constant} {token : Token} {acc : List Mark} :
    Holds last (fun past ahead => Kept acc past ∧ token = ahead.headD last)
      (do let _ ← advance; return Expr.constant value)
      fun e past _ => Kept (acc ++ e.marks) past := by
  refine Holds.bind (Holds.advance (Q := fun _ past _ => Kept acc past)
    (fun _ t _ h => h.1.skip [t]) fun _ h => h.1) fun _ => Holds.pure fun past _ h => ?_
  simpa [Expr.marks] using h

omit hlast in
theorem holds_literal {token : Token} {acc : List Mark} :
    Holds last (fun past ahead => Kept acc past ∧ token = ahead.headD last)
      (do
        let _ ← advance
        match token.literal with
        | some literal => return Expr.constant (constantOf literal)
        | none => failAt token .expectedExpression)
      fun e past _ => Kept (acc ++ e.marks) past := by
  -- the token stays one of the stream after it is taken: the failure may be pinned to it
  refine Holds.bind (Holds.advance
    (Q := fun _ past ahead => Kept acc past ∧ token ∈ last :: (past ++ ahead)) ?_ ?_) fun _ => ?_
  · rintro past t ahead ⟨h, hpeek⟩
    exact ⟨h.skip [t], by simp [hpeek]⟩
  · rintro past ⟨h, rfl⟩
    exact ⟨h, by simp⟩
  · cases token.literal with
    | none => exact Holds.failAt fun _ _ h => h.2
    | some literal =>
      refine Holds.pure fun past _ h => ?_
      simpa [Expr.marks] using h.1

theorem keeps_primary {expression : Parser Expr} (hexpr : Keeps last Expr.marks expression) :
    Keeps last Expr.marks (primary expression) := by
  intro acc
  refine Holds.bind Holds.peek fun token => ?_
  split
  · exact holds_constant
  · exact holds_constant
  · exact holds_constant
  · exact holds_literal
  · exact holds_literal
  · next hkind =>
    refine Holds.bind (holds_advance_peeked hlast (r := .reference)
      (by simp [hkind, Role.kinds]) (by decide)) fun _ => Holds.pure fun past _ h => ?_
    simpa [Expr.marks] using h
  · refine Holds.bind (Holds.advance (Q := fun _ past _ => Kept acc past)
      (fun _ t _ h => h.1.skip [t]) fun _ h => h.1) fun _ => ?_
    refine Holds.bind (hexpr acc) fun inner => ?_
    refine Holds.bind (Holds.expect hlast (Q := fun _ past _ => Kept (acc ++ inner.marks) past)
      (by decide) fun _ t _ h _ => h.skip [t]) fun _ => Holds.pure fun past _ h => ?_
    simpa [Expr.marks] using h
  · exact Holds.fail

/-- The trees that expressions are read into keep tokens of the stream. -/
theorem keeps_expression (bound : Nat) : Keeps last Expr.marks (expression bound) := by
  induction bound with
  | zero => exact fun acc => Holds.fail
  | succ bound ih =>
    refine keeps_levels hlast (keeps_unary hlast ?_ bound) bound
    intro acc
    exact Holds.bind (keeps_primary hlast ih acc) fun callee =>
      holds_calls hlast ih bound bound callee acc

end

/-! ### Recovery -/

theorem skipBlock_suffix (depth : Nat) (ts : List Token) : skipBlock depth ts <:+ ts := by
  fun_induction skipBlock depth ts with
  | case1 => exact List.suffix_refl []
  | case2 depth t ts _ ih => exact ih.trans (List.suffix_cons t ts)
  | case3 depth t ts _ _ => exact List.suffix_cons t ts
  | case4 depth t ts _ _ ih => exact ih.trans (List.suffix_cons t ts)
  | case5 depth t ts _ _ ih => exact ih.trans (List.suffix_cons t ts)

theorem skipOrphan_suffix (ts : List Token) : skipOrphan ts <:+ ts := by
  fun_cases skipOrphan ts with
  | case1 => exact List.suffix_refl []
  | case2 t ts _ => exact skipBlock_suffix 0 (t :: ts)
  | case3 t ts _ => exact List.suffix_refl (t :: ts)

theorem skipStatement_suffix (ts : List Token) : skipStatement ts <:+ ts := by
  fun_induction skipStatement ts with
  | case1 => exact List.suffix_refl []
  | case2 t ts _ => exact List.suffix_refl (t :: ts)
  | case3 t ts _ => exact skipBlock_suffix 0 (t :: ts)
  | case4 t ts _ => exact (skipOrphan_suffix ts).trans (List.suffix_cons t ts)
  | case5 t ts _ _ _ _ => exact List.suffix_refl (t :: ts)
  | case6 t ts _ _ _ _ ih => exact ih.trans (List.suffix_cons t ts)

theorem synchronize_suffix (ts : List Token) : synchronize ts <:+ ts := by
  fun_cases synchronize ts with
  | case1 => exact List.suffix_refl []
  | case2 t ts _ => exact List.suffix_refl (t :: ts)
  | case3 t ts _ => exact skipBlock_suffix 0 (t :: ts)
  | case4 t ts _ => exact (skipOrphan_suffix ts).trans (List.suffix_cons t ts)
  | case5 t ts _ _ _ => exact (skipStatement_suffix ts).trans (List.suffix_cons t ts)

/-- A statement that is given up leaves nothing behind in the tree. -/
theorem keeps_recovering {marks : α → List Mark} {p : Parser α} (hp : Keeps last marks p) :
    Keeps last (fun o : Option α => (o.map marks).getD []) (recovering p) := by
  intro acc past ahead hkept
  obtain ⟨used, hused, hnotes, hout⟩ := hp acc past ahead hkept
  unfold recovering
  rcases hr : p last ahead with ⟨outcome, notes, rest⟩
  rw [hr] at hused hnotes hout
  cases outcome with
  | ok a => exact ⟨used, hused, hnotes, hout⟩
  | error d =>
    obtain ⟨skipped, hskipped⟩ := synchronize_suffix rest
    refine ⟨used ++ skipped, ?_, ?_, ?_⟩
    · rw [List.append_assoc, hskipped]
      exact hused
    · intro e he
      rcases List.mem_append.1 he with he | he
      · exact hnotes e he
      · rw [List.mem_singleton.1 he]
        exact hout
    · simpa using hkept.skip (used ++ skipped)

section

variable (hlast : last.kind = .endOfFile)
include hlast

/-! ### Blocks -/

theorem keeps_endOfLine : Keeps last (fun _ => []) endOfLine := by
  intro acc
  refine Holds.bind (Holds.expect hlast (Q := fun _ past _ => Kept acc past) (by decide)
    fun _ t _ h _ => h.skip [t]) fun _ => Holds.pure fun past _ h => ?_
  simpa using h

omit hlast in
theorem keeps_statements {statement : Parser Stmt} (hstmt : Keeps last Stmt.marks statement)
    (bound : Nat) : Keeps last Stmt.allMarks (statements statement bound) := by
  induction bound with
  | zero => exact Keeps.pure rfl
  | succ bound ih =>
    intro acc
    rw [statements]
    refine Holds.bind Holds.peek fun token => Holds.ite (fun _ => ?_) fun _ => ?_
    · exact (Keeps.pure rfl acc).weaken (fun _ _ h => h.1) fun _ _ _ h => h
    · refine Holds.bind ((keeps_recovering hstmt acc).weaken (fun _ _ h => h.1) fun _ _ _ h => h)
        fun o => ?_
      cases o with
      | none => exact (ih acc).weaken (fun _ _ h => by simpa using h) fun _ _ _ h => h
      | some s =>
        refine Holds.bind (ih _) fun ss => Holds.pure fun past _ h => ?_
        simpa [Stmt.allMarks] using h

theorem keeps_block {statement : Parser Stmt} (hstmt : Keeps last Stmt.marks statement)
    (bound : Nat) : Keeps last Stmt.allMarks (block statement bound) := by
  intro acc
  refine Holds.bind (keeps_endOfLine hlast acc) fun _ => ?_
  refine Holds.bind (Holds.accept hlast (Q := fun _ past _ => Kept acc past) (by decide)
    (fun _ t _ h _ => by simpa using h.skip [t]) fun _ _ h => by simpa using h) fun indented => ?_
  refine Holds.ite (fun _ => ?_) fun _ => Holds.fail
  refine Holds.bind (keeps_statements hstmt bound acc) fun body => ?_
  have hend : Holds last (fun past _ => Kept (acc ++ Stmt.allMarks body) past) (do
      let _ ← expect .dedent "the end of the block"
      return body) fun body past _ => Kept (acc ++ Stmt.allMarks body) past :=
    Holds.bind (Holds.expect hlast (Q := fun _ past _ => Kept (acc ++ Stmt.allMarks body) past)
      (by decide) fun _ t _ h _ => h.skip [t]) fun _ => Holds.pure fun _ _ h => h
  exact Holds.ite (fun _ => Holds.bind Holds.note fun _ => hend) fun _ => hend

/-! ### Simple statements -/

theorem keeps_change {expression : Parser Expr} (hexpr : Keeps last Expr.marks expression) :
    Keeps last Stmt.marks (change expression) := by
  intro acc
  refine Holds.bind holds_advance_skip fun _ => ?_
  refine Holds.bind (hexpr acc) fun target => ?_
  refine Holds.bind (Holds.expect hlast
    (Q := fun equal past _ => Kept (acc ++ target.marks) past ∧ equal ∈ past) (by decide)
    fun _ t _ h _ => ⟨h.skip [t], by simp⟩) fun equal => ?_
  -- the sign is still among the tokens taken once the value has been read
  have hvalue : Holds last (fun past _ => Kept (acc ++ target.marks) past ∧ equal ∈ past)
      expression fun value past _ => Kept (acc ++ target.marks ++ value.marks) past ∧
        equal ∈ past := by
    rintro past ahead ⟨hkept, hmem⟩
    obtain ⟨used, hused, hnotes, hout⟩ := hexpr _ past ahead hkept
    refine ⟨used, hused, hnotes, ?_⟩
    cases hr : (expression last ahead).outcome with
    | ok value =>
      rw [hr] at hout
      exact ⟨hout, List.mem_append_left _ hmem⟩
    | error d =>
      rw [hr] at hout
      exact hout
  refine Holds.bind hvalue fun value => ?_
  cases target with
  | «variable» name =>
    refine Holds.bind ((keeps_endOfLine hlast _).weaken (fun _ _ h => h.1) fun _ _ _ h => h)
      fun _ => Holds.pure fun past _ h => ?_
    simpa [Stmt.marks, Expr.marks] using h
  | _ => exact Holds.failAt fun _ _ h => by simp [h.2]

theorem keeps_create {expression : Parser Expr} (hexpr : Keeps last Expr.marks expression) :
    Keeps last Stmt.marks (create expression) := by
  intro acc
  refine Holds.bind holds_advance_skip fun _ => ?_
  refine Holds.bind (Holds.expect hlast
    (Q := fun name past _ => Kept (acc ++ [(.declaration, name)]) past) (by decide)
    fun _ t _ h hkind => h.push (by simp [hkind, Role.kinds])) fun name => ?_
  refine Holds.bind (Holds.expect hlast
    (Q := fun _ past _ => Kept (acc ++ [(.declaration, name)]) past) (by decide)
    fun _ t _ h _ => h.skip [t]) fun _ => ?_
  refine Holds.bind (hexpr _) fun value => ?_
  refine Holds.bind (keeps_endOfLine hlast _) fun _ => Holds.pure fun past _ h => ?_
  simpa [Stmt.marks] using h

/-- Taking the word that a statement was recognized by. -/
theorem holds_advance_word {kind : Kind} {acc : List Mark} (hkind : kind ∈ Role.word.kinds) :
    Holds last (fun past ahead => Kept acc past ∧ (ahead.headD last).kind = kind) advance
      fun token past _ => Kept (acc ++ [(.word, token)]) past := by
  refine Holds.advance ?_ ?_
  · rintro past t ahead ⟨hkept, rfl⟩
    exact hkept.push hkind
  · rintro past ⟨-, rfl⟩
    simp [hlast, Role.kinds] at hkind

theorem holds_giveBack {expression : Parser Expr} (hexpr : Keeps last Expr.marks expression)
    (acc : List Mark) :
    Holds last (fun past ahead => Kept acc past ∧ (ahead.headD last).kind = .returnWord)
      (giveBack expression) fun s past _ => Kept (acc ++ s.marks) past := by
  refine Holds.bind (holds_advance_word hlast (by decide)) fun token => ?_
  refine Holds.bind (Holds.accept hlast
    (Q := fun _ past _ => Kept (acc ++ [(.word, token)]) past) (by decide)
    (fun _ t _ h _ => h.skip [t]) fun _ _ h => h) fun withValue => ?_
  refine Holds.ite (fun _ => ?_) fun _ => ?_
  · refine Holds.bind (hexpr _) fun value => ?_
    refine Holds.bind (keeps_endOfLine hlast _) fun _ => Holds.pure fun past _ h => ?_
    simpa [Stmt.marks] using h
  · refine Holds.bind (keeps_endOfLine hlast _) fun _ => Holds.pure fun past _ h => ?_
    simpa [Stmt.marks] using h

theorem keeps_expressionStatement {expression : Parser Expr}
    (hexpr : Keeps last Expr.marks expression) :
    Keeps last Stmt.marks (expressionStatement expression) := by
  intro acc
  refine Holds.bind (hexpr acc) fun value => ?_
  have hend : Holds last (fun past _ => Kept (acc ++ value.marks) past)
      (do endOfLine; return Stmt.expression value) fun s past _ => Kept (acc ++ s.marks) past := by
    refine Holds.bind (keeps_endOfLine hlast _) fun _ => Holds.pure fun past _ h => ?_
    simpa [Stmt.marks] using h
  cases value with
  | «variable» name =>
    exact Holds.bind (Holds.check _) fun assigned => Holds.ite (fun _ => Holds.fail) fun _ => hend
  | _ => exact hend

/-! ### Compound statements -/

/-- The tokens that declare parameters. -/
def paramMarks (params : List Token) : List Mark := params.map (.declaration, ·)

theorem keeps_parameters (bound count : Nat) : Keeps last paramMarks (parameters bound count) := by
  induction bound generalizing count with
  | zero => exact Keeps.pure rfl
  | succ bound ih =>
    intro acc
    rw [parameters]
    have hrest : Holds last (fun past _ => Kept acc past) (do
        let name ← expect .identifier "a parameter name"
        if ← accept .comma then return name :: (← parameters bound (count + 1))
        else return [name]) fun params past _ => Kept (acc ++ paramMarks params) past := by
      refine Holds.bind (Holds.expect hlast
        (Q := fun name past _ => Kept (acc ++ [(.declaration, name)]) past) (by decide)
        fun _ t _ h hkind => h.push (by simp [hkind, Role.kinds])) fun name => ?_
      refine Holds.bind (Holds.accept hlast
        (Q := fun _ past _ => Kept (acc ++ [(.declaration, name)]) past) (by decide)
        (fun _ t _ h _ => h.skip [t]) fun _ _ h => h) fun more => ?_
      refine Holds.ite (fun _ => ?_) fun _ => Holds.pure fun past _ h => h
      refine Holds.bind (ih (count + 1) _) fun params => Holds.pure fun past _ h => ?_
      simpa [paramMarks] using h
    refine Holds.ite (fun _ => ?_) fun _ => hrest
    exact Holds.bind Holds.note fun _ => hrest

theorem keeps_parameterList (bound : Nat) : Keeps last paramMarks (parameterList bound) := by
  intro acc
  refine Holds.bind (Holds.accept hlast (Q := fun _ past _ => Kept acc past) (by decide)
    (fun _ t _ h _ => h.skip [t]) fun _ _ h => h) fun accepts => ?_
  exact Holds.ite (fun _ => keeps_parameters hlast bound 0 acc) fun _ => Keeps.pure rfl acc

theorem keeps_define {statement : Parser Stmt} (hstmt : Keeps last Stmt.marks statement)
    (bound : Nat) : Keeps last Stmt.marks (define statement bound) := by
  intro acc
  refine Holds.bind holds_advance_skip fun _ => ?_
  refine Holds.bind (Holds.expect hlast
    (Q := fun name past _ => Kept (acc ++ [(.declaration, name)]) past) (by decide)
    fun _ t _ h hkind => h.push (by simp [hkind, Role.kinds])) fun name => ?_
  refine Holds.bind (Holds.expect hlast
    (Q := fun _ past _ => Kept (acc ++ [(.declaration, name)]) past) (by decide)
    fun _ t _ h _ => h.skip [t]) fun _ => ?_
  refine Holds.bind (keeps_parameterList hlast bound _) fun params => ?_
  refine Holds.bind (Holds.expect hlast
    (Q := fun _ past _ => Kept (acc ++ [(.declaration, name)] ++ paramMarks params) past)
    (by decide) fun _ t _ h _ => h.skip [t]) fun _ => ?_
  refine Holds.bind (keeps_block hlast hstmt bound _) fun body => Holds.pure fun past _ h => ?_
  simpa [Stmt.marks, paramMarks] using h

theorem keeps_alternatives {expression : Parser Expr} {body : Parser (List Stmt)}
    (hexpr : Keeps last Expr.marks expression) (hbody : Keeps last Stmt.allMarks body)
    (bound : Nat) : Keeps last Else.marks (alternatives expression body bound) := by
  induction bound with
  | zero => exact Keeps.pure rfl
  | succ bound ih =>
    intro acc
    rw [alternatives]
    refine Holds.bind (Holds.accept hlast (Q := fun _ past _ => Kept acc past) (by decide)
      (fun _ t _ h _ => h.skip [t]) fun _ _ h => h) fun otherwise => ?_
    refine Holds.ite (fun _ => ?_) fun _ => Keeps.pure rfl acc
    refine Holds.bind Holds.peek fun token => ?_
    refine Holds.bind (Holds.accept hlast (Q := fun again past _ =>
      Kept (acc ++ if again then [(.word, token)] else []) past) (by decide) ?_ ?_) fun again => ?_
    · rintro past t ahead ⟨h, rfl⟩ hkind
      exact h.push (r := .word) (t := token) (by simp [hkind, Role.kinds])
    · rintro past ahead ⟨h, -⟩
      simpa using h
    refine Holds.ite (fun hagain => ?_) fun hagain => ?_
    · refine Holds.bind (hexpr _) fun cond => ?_
      refine Holds.bind (hbody _) fun stmts => ?_
      refine Holds.bind (ih _) fun rest => Holds.pure fun past _ h => ?_
      simpa [Else.marks, hagain] using h
    · refine Holds.bind (hbody _) fun stmts => Holds.pure fun past _ h => ?_
      simpa [Else.marks, hagain] using h

theorem holds_conditional {expression : Parser Expr} {statement : Parser Stmt}
    (hexpr : Keeps last Expr.marks expression) (hstmt : Keeps last Stmt.marks statement)
    (bound : Nat) (acc : List Mark) :
    Holds last (fun past ahead => Kept acc past ∧ (ahead.headD last).kind = .ifWord)
      (conditional expression statement bound) fun s past _ => Kept (acc ++ s.marks) past := by
  refine Holds.bind (holds_advance_word hlast (by decide)) fun token => ?_
  refine Holds.bind (hexpr _) fun cond => ?_
  refine Holds.bind (keeps_block hlast hstmt bound _) fun body => ?_
  refine Holds.bind (keeps_alternatives hlast hexpr (keeps_block hlast hstmt bound) bound _)
    fun rest => Holds.pure fun past _ h => ?_
  simpa [Stmt.marks] using h

theorem holds_repetition {expression : Parser Expr} {statement : Parser Stmt}
    (hexpr : Keeps last Expr.marks expression) (hstmt : Keeps last Stmt.marks statement)
    (bound : Nat) (acc : List Mark) :
    Holds last (fun past ahead => Kept acc past ∧ (ahead.headD last).kind = .repeatWord)
      (repetition expression statement bound) fun s past _ => Kept (acc ++ s.marks) past := by
  refine Holds.bind (holds_advance_word hlast (by decide)) fun token => ?_
  refine Holds.bind (Holds.accept hlast
    (Q := fun _ past _ => Kept (acc ++ [(.word, token)]) past) (by decide)
    (fun _ t _ h _ => h.skip [t]) fun _ _ h => h) fun asLong => ?_
  refine Holds.ite (fun _ => ?_) fun _ => ?_
  · refine Holds.bind (hexpr _) fun cond => ?_
    refine Holds.bind (keeps_block hlast hstmt bound _) fun body => Holds.pure fun past _ h => ?_
    simpa [Stmt.marks] using h
  · refine Holds.bind (hexpr _) fun count => ?_
    refine Holds.bind (Holds.expect hlast
      (Q := fun _ past _ => Kept (acc ++ [(.word, token)] ++ count.marks) past) (by decide)
      fun _ t _ h _ => h.skip [t]) fun _ => ?_
    refine Holds.bind (keeps_block hlast hstmt bound _) fun body => Holds.pure fun past _ h => ?_
    simpa [Stmt.marks] using h

theorem keeps_statementOf {expression : Parser Expr} {inner : Parser Stmt}
    (hexpr : Keeps last Expr.marks expression) (hinner : Keeps last Stmt.marks inner)
    (bound : Nat) : Keeps last Stmt.marks (statementOf expression inner bound) := by
  intro acc
  refine Holds.bind Holds.peek fun token => ?_
  split
  · exact (keeps_change hlast hexpr acc).weaken (fun _ _ h => h.1) fun _ _ _ h => h
  · exact (keeps_create hlast hexpr acc).weaken (fun _ _ h => h.1) fun _ _ _ h => h
  · exact (keeps_define hlast hinner bound acc).weaken (fun _ _ h => h.1) fun _ _ _ h => h
  · next hkind =>
    exact (holds_conditional hlast hexpr hinner bound acc).weaken
      (fun _ _ h => ⟨h.1, h.2 ▸ hkind⟩) fun _ _ _ h => h
  · exact Holds.fail
  · next hkind =>
    exact (holds_repetition hlast hexpr hinner bound acc).weaken
      (fun _ _ h => ⟨h.1, h.2 ▸ hkind⟩) fun _ _ _ h => h
  · next hkind =>
    exact (holds_giveBack hlast hexpr acc).weaken (fun _ _ h => ⟨h.1, h.2 ▸ hkind⟩)
      fun _ _ _ h => h
  · exact (keeps_expressionStatement hlast hexpr acc).weaken (fun _ _ h => h.1) fun _ _ _ h => h

/-- The trees that statements are read into keep tokens of the stream. -/
theorem keeps_statement (bound : Nat) : Keeps last Stmt.marks (statement bound) := by
  induction bound with
  | zero => exact fun acc => Holds.fail
  | succ bound ih => exact keeps_statementOf hlast (keeps_expression hlast _) ih bound

omit hlast in
theorem keeps_program {statement : Parser Stmt} (hstmt : Keeps last Stmt.marks statement)
    (bound : Nat) : Keeps last Stmt.allMarks (program statement bound) := by
  induction bound with
  | zero => exact Keeps.pure rfl
  | succ bound ih =>
    intro acc
    rw [program]
    refine Holds.bind Holds.peek fun token => Holds.ite (fun _ => ?_) fun _ => ?_
    · exact (Keeps.pure rfl acc).weaken (fun _ _ h => h.1) fun _ _ _ h => h
    refine Holds.ite (fun _ => ?_) fun _ => ?_
    · exact Holds.bind (holds_advance_skip.weaken (fun _ _ h => h.1) fun _ _ _ h => h)
        fun _ => ih acc
    · refine Holds.bind ((keeps_recovering hstmt acc).weaken (fun _ _ h => h.1) fun _ _ _ h => h)
        fun o => ?_
      cases o with
      | none => exact (ih acc).weaken (fun _ _ h => by simpa using h) fun _ _ _ h => h
      | some s =>
        refine Holds.bind (ih _) fun ss => Holds.pure fun past _ h => ?_
        simpa [Stmt.allMarks] using h

end

/-! ### Token streams -/

theorem endToken_kind (tokens : List Token) : (endToken tokens).kind = .endOfFile := by
  unfold endToken
  cases h : tokens.find? isEnd with
  | none => rfl
  | some t => simpa [isEnd] using List.find?_some h

/-- What is known of a parse of any token stream: the tree keeps tokens of the stream, and the
diagnostics are pinned to tokens of the stream or to its end. -/
theorem parse_tracks (tokens : List Token) :
    Kept (Stmt.allMarks (parse tokens).stmts) (ahead tokens) ∧
      ∀ d ∈ (parse tokens).errors, PinnedTo (endToken tokens :: ahead tokens) d := by
  have hprogram := keeps_program (keeps_statement (endToken_kind tokens) ((ahead tokens).length + 1))
    ((ahead tokens).length + 1)
  obtain ⟨used, hused, hnotes, hout⟩ := hprogram [] [] (ahead tokens) ⟨List.nil_sublist _, by simp⟩
  simp only [List.nil_append] at hnotes hout
  unfold parse
  generalize hr : program (statement ((ahead tokens).length + 1)) ((ahead tokens).length + 1)
    (endToken tokens) (ahead tokens) = reply at hused hnotes hout
  cases ho : reply.outcome with
  | ok stmts =>
    simp only [hr, ho] at hout ⊢
    refine ⟨?_, hnotes⟩
    rw [hused]
    exact hout.skip _
  | error e =>
    simp only [hr, ho] at hout ⊢
    refine ⟨⟨List.nil_sublist _, by simp [Stmt.allMarks]⟩, ?_⟩
    intro d hd
    rcases List.mem_append.1 hd with hd | hd
    · exact hnotes d hd
    · rw [List.mem_singleton.1 hd]
      exact hout

end Grammar

end Offside
