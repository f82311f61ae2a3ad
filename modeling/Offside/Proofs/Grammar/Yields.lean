import Offside.Proofs.Grammar.Derivation
import Offside.Proofs.Tracking

/-!
# Parsing without a diagnostic

When exactly a parser answers with a value and neither stops nor records anything, in terms of the
parsers that it is made of. Every statement here is an equivalence, so that it serves to take apart
an answer as well as to bring one about.

* `Parser.Yields`: the parser answers with a value, without a diagnostic, and leaves given tokens;
* `Parser.yields_bind` and the like: the basic parsers;
* `Grammar.yields_block` and the like: the parsers of the grammar.
-/

namespace Offside

namespace Parser

variable {α β : Type} {last : Token} {ts rest : List Token}

/-- A parser answers with a value and without a diagnostic, and leaves the tokens `rest`. -/
def Yields (p : Parser α) (last : Token) (ts : List Token) (a : α) (rest : List Token) : Prop :=
  p last ts = ⟨.ok a, [], rest⟩

/-- Without a diagnostic, a parser answers in one way only. -/
theorem Yields.unique {p : Parser α} {a b : α} {us : List Token} (h : p.Yields last ts a rest)
    (h' : p.Yields last ts b us) : a = b ∧ rest = us := by
  have heq := h.symm.trans h'
  simp only [Reply.mk.injEq, Except.ok.injEq, true_and] at heq
  exact heq

theorem yields_pure {a b : α} : (pure a : Parser α).Yields last ts b rest ↔ b = a ∧ rest = ts := by
  show (⟨.ok a, [], ts⟩ : Reply α) = _ ↔ _
  simp only [Reply.mk.injEq, Except.ok.injEq, true_and]
  exact ⟨fun h => ⟨h.1.symm, h.2.symm⟩, fun h => ⟨h.1.symm, h.2.symm⟩⟩

theorem yields_bind {p : Parser α} {f : α → Parser β} {b : β} :
    (p >>= f).Yields last ts b rest ↔
      ∃ a us, p.Yields last ts a us ∧ (f a).Yields last us b rest := by
  unfold Yields
  cases hp : p last ts with
  | mk outcome notes us =>
    cases outcome with
    | error d =>
      rw [bind_of_error hp]
      constructor
      · rintro ⟨⟩
      · rintro ⟨a, us, ⟨⟩, -⟩
    | ok a =>
      rw [bind_of_ok hp]
      simp only [Reply.mk.injEq, Except.ok.injEq, List.append_eq_nil_iff]
      constructor
      · rintro ⟨houtcome, ⟨rfl, hnotes⟩, hrest⟩
        refine ⟨a, us, ⟨rfl, rfl, rfl⟩, ?_⟩
        rw [← houtcome, ← hnotes, ← hrest]
      · rintro ⟨a, us, ⟨rfl, rfl, rfl⟩, hf⟩
        rw [hf]
        exact ⟨rfl, ⟨rfl, rfl⟩, rfl⟩

theorem yields_ite {c : Prop} [Decidable c] {p q : Parser α} {a : α} :
    (if c then p else q).Yields last ts a rest ↔
      c ∧ p.Yields last ts a rest ∨ ¬ c ∧ q.Yields last ts a rest := by
  split <;> simp [*]

theorem yields_peek {a : Token} :
    peek.Yields last ts a rest ↔ a = ts.headD last ∧ rest = ts := by
  simp [Yields, peek, eq_comm]

theorem yields_advance {a : Token} :
    advance.Yields last ts a rest ↔ a = ts.headD last ∧ rest = ts.tail := by
  simp [Yields, advance, eq_comm]

theorem yields_peek_bind {f : Token → Parser β} {b : β} :
    (peek >>= f).Yields last ts b rest ↔ (f (ts.headD last)).Yields last ts b rest := by
  rw [yields_bind]
  constructor
  · rintro ⟨t, us, ht, h⟩
    obtain ⟨rfl, rfl⟩ := yields_peek.1 ht
    exact h
  · exact fun h => ⟨_, _, yields_peek.2 ⟨rfl, rfl⟩, h⟩

theorem yields_advance_bind {f : Token → Parser β} {b : β} {t : Token} :
    (advance >>= f).Yields last (t :: ts) b rest ↔ (f t).Yields last ts b rest := by
  rw [yields_bind]
  constructor
  · rintro ⟨u, us, hu, h⟩
    obtain ⟨rfl, rfl⟩ := yields_advance.1 hu
    exact h
  · exact fun h => ⟨_, _, yields_advance.2 ⟨rfl, rfl⟩, h⟩

theorem yields_check {kind : Kind} {b : Bool} :
    (check kind).Yields last ts b rest ↔
      b = decide ((ts.headD last).kind = kind) ∧ rest = ts := by
  simp [Yields, check, eq_comm]

theorem not_yields_failAt {t : Token} {e : GrammarError} {a : α} :
    ¬ (failAt t e : Parser α).Yields last ts a rest := nofun

theorem not_yields_fail {e : GrammarError} {a : α} :
    ¬ (fail e : Parser α).Yields last ts a rest := nofun

theorem not_yields_note {e : GrammarError} {u : Unit} : ¬ (note e).Yields last ts u rest := nofun

variable (hlast : last.kind = .endOfFile)
include hlast

/-- Only a token of the list can have a kind other than the end token's. -/
theorem headD_kind {kind : Kind} (hkind : kind ≠ .endOfFile) :
    (ts.headD last).kind = kind ↔ ∃ t us, t.kind = kind ∧ ts = t :: us := by
  cases ts with
  | nil => simp [hlast, hkind.symm]
  | cons t us => simp

theorem yields_accept {kind : Kind} (hkind : kind ≠ .endOfFile) {b : Bool} :
    (accept kind).Yields last ts b rest ↔
      b = true ∧ (∃ t, t.kind = kind ∧ ts = t :: rest) ∨
        b = false ∧ (ts.headD last).kind ≠ kind ∧ rest = ts := by
  unfold Yields accept
  cases ts with
  | nil => simp [hlast, hkind.symm, eq_comm]
  | cons t us =>
    by_cases ht : t.kind = kind
    · simp only [List.headD_cons, ht, if_true, List.tail_cons, Reply.mk.injEq, Except.ok.injEq,
        true_and, List.cons.injEq, ne_eq, not_true, false_and, and_false, or_false]
      constructor
      · rintro ⟨rfl, rfl⟩
        exact ⟨rfl, t, ht, rfl, rfl⟩
      · rintro ⟨rfl, u, -, -, rfl⟩
        exact ⟨rfl, rfl⟩
    · simp only [List.headD_cons, ht, if_false, Reply.mk.injEq, Except.ok.injEq, true_and,
        List.cons.injEq, ne_eq, not_false_iff]
      constructor
      · rintro ⟨rfl, rfl⟩
        exact .inr ⟨rfl, rfl⟩
      · rintro (⟨-, u, hu, rfl, -⟩ | ⟨rfl, rfl⟩)
        · exact absurd hu ht
        · exact ⟨rfl, rfl⟩

theorem yields_expect {kind : Kind} (hkind : kind ≠ .endOfFile) {what : String} {t : Token} :
    (expect kind what).Yields last ts t rest ↔ t.kind = kind ∧ ts = t :: rest := by
  unfold Yields expect
  cases ts with
  | nil => simp [hlast, hkind.symm, fail, failAt]
  | cons u us =>
    by_cases hu : u.kind = kind
    · simp only [List.headD_cons, hu, if_true, advance, List.tail_cons, Reply.mk.injEq,
        Except.ok.injEq, true_and, List.cons.injEq]
      constructor
      · rintro ⟨rfl, rfl⟩
        exact ⟨hu, rfl, rfl⟩
      · rintro ⟨-, rfl, rfl⟩
        exact ⟨rfl, rfl⟩
    · simp only [List.headD_cons, hu, if_false, fail, failAt, List.cons.injEq]
      constructor
      · rintro ⟨⟩
      · rintro ⟨ht, rfl, rfl⟩
        exact absurd ht hu

end Parser

namespace Grammar

open Offside.Parser

variable {last : Token} {ts rest : List Token}

theorem yields_recovering {α : Type} {p : Parser α} {o : Option α} :
    (recovering p).Yields last ts o rest ↔ ∃ a, o = some a ∧ p.Yields last ts a rest := by
  unfold Yields recovering
  cases p last ts with
  | mk outcome notes us =>
    cases outcome with
    | ok a =>
      simp only [Reply.mk.injEq, Except.ok.injEq]
      constructor
      · rintro ⟨rfl, rfl, rfl⟩
        exact ⟨a, rfl, rfl, rfl, rfl⟩
      · rintro ⟨b, rfl, rfl, rfl, rfl⟩
        exact ⟨rfl, rfl, rfl⟩
    | error d => simp

/-- A statement that is kept, and those after it. -/
theorem yields_recovering_bind {statement : Parser Stmt} {next : Parser (List Stmt)}
    {ss : List Stmt} :
    (do
      match ← recovering statement with
      | some s => return s :: (← next)
      | none => next : Parser (List Stmt)).Yields last ts ss rest ↔
      ∃ s us ss', statement.Yields last ts s us ∧ next.Yields last us ss' rest ∧ ss = s :: ss' := by
  rw [yields_bind]
  constructor
  · rintro ⟨o, us, ho, h⟩
    obtain ⟨s, rfl, hs⟩ := yields_recovering.1 ho
    simp only [yields_bind, yields_pure] at h
    obtain ⟨ss', vs, hss, rfl, rfl⟩ := h
    exact ⟨s, us, ss', hs, hss, rfl⟩
  · rintro ⟨s, us, ss', hs, hss, rfl⟩
    refine ⟨some s, us, yields_recovering.2 ⟨s, rfl, hs⟩, ?_⟩
    simp only [yields_bind, yields_pure]
    exact ⟨ss', _, hss, rfl, rfl⟩

variable (hlast : last.kind = .endOfFile)
include hlast

/-! ### Expressions -/

omit hlast in
theorem yields_operands {connective? : Kind → Option Connective} {operand : Parser Expr}
    {bound : Nat} {left e : Expr} :
    (operands connective? operand (bound + 1) left).Yields last ts e rest ↔
      (connective? (ts.headD last).kind = none ∧ e = left ∧ rest = ts) ∨
        ∃ c right us, connective? (ts.headD last).kind = some c ∧
          operand.Yields last ts.tail right us ∧
          (operands connective? operand bound (c.apply (ts.headD last) left right)).Yields last us e
            rest := by
  simp only [operands, yields_bind, yields_peek]
  constructor
  · rintro ⟨token, us, ⟨rfl, rfl⟩, h⟩
    cases hc : connective? (us.headD last).kind with
    | none =>
      rw [hc] at h
      exact .inl ⟨rfl, yields_pure.1 h⟩
    | some c =>
      rw [hc] at h
      simp only [yields_bind, yields_advance] at h
      obtain ⟨-, -, ⟨-, rfl⟩, right, us', hright, hrest⟩ := h
      exact .inr ⟨c, right, us', rfl, hright, hrest⟩
  · intro h
    refine ⟨_, _, ⟨rfl, rfl⟩, ?_⟩
    rcases h with ⟨hc, rfl, rfl⟩ | ⟨c, right, us, hc, hright, hrest⟩
    · rw [hc]
      exact yields_pure.2 ⟨rfl, rfl⟩
    · rw [hc]
      simp only [yields_bind, yields_advance]
      exact ⟨_, _, ⟨rfl, rfl⟩, right, us, hright, hrest⟩

omit hlast in
theorem yields_unary {operand : Parser Expr} {bound : Nat} {e : Expr} :
    (unary operand (bound + 1)).Yields last ts e rest ↔
      (unary? (ts.headD last).kind = none ∧ operand.Yields last ts e rest) ∨
        ∃ op inner, unary? (ts.headD last).kind = some op ∧
          (unary operand bound).Yields last ts.tail inner rest ∧
          e = .unary op (ts.headD last) inner := by
  simp only [unary, yields_bind, yields_peek]
  constructor
  · rintro ⟨token, us, ⟨rfl, rfl⟩, h⟩
    cases hop : unary? (us.headD last).kind with
    | none =>
      rw [hop] at h
      exact .inl ⟨rfl, h⟩
    | some op =>
      rw [hop] at h
      simp only [yields_bind, yields_advance, yields_pure] at h
      obtain ⟨-, -, ⟨-, rfl⟩, inner, us', hinner, rfl, rfl⟩ := h
      exact .inr ⟨op, inner, rfl, hinner, rfl⟩
  · intro h
    refine ⟨_, _, ⟨rfl, rfl⟩, ?_⟩
    rcases h with ⟨hop, h⟩ | ⟨op, inner, hop, hinner, rfl⟩
    · rw [hop]
      exact h
    · rw [hop]
      simp only [yields_bind, yields_advance, yields_pure]
      exact ⟨_, _, ⟨rfl, rfl⟩, inner, _, hinner, rfl, rfl⟩

theorem yields_arguments {expression : Parser Expr} {bound count : Nat} {es : List Expr} :
    (arguments expression (bound + 1) count).Yields last ts es rest ↔
      count ≠ maxArguments ∧ ∃ e us, expression.Yields last ts e us ∧
        ((es = [e] ∧ (us.headD last).kind ≠ .comma ∧ rest = us) ∨
          ∃ c vs es', c.kind = .comma ∧ us = c :: vs ∧ es = e :: es' ∧
            (arguments expression bound (count + 1)).Yields last vs es' rest) := by
  rw [arguments]
  have hcomma : Kind.comma ≠ .endOfFile := by decide
  simp only [yields_ite, yields_bind, not_yields_note, false_and, exists_false, and_false, false_or,
    yields_accept hlast hcomma, yields_pure]
  refine and_congr_right fun _ => exists_congr fun e => exists_congr fun us => ?_
  refine and_congr_right fun _ => ?_
  constructor
  · rintro ⟨b, vs, ⟨rfl, c, hc, rfl⟩ | ⟨rfl, hne, rfl⟩, h⟩
    · obtain ⟨-, es', us', hes, rfl, rfl⟩ := h.resolve_right (by simp)
      exact .inr ⟨c, vs, es', hc, rfl, rfl, hes⟩
    · obtain ⟨-, rfl, rfl⟩ := h.resolve_left (by simp)
      exact .inl ⟨rfl, hne, rfl⟩
  · rintro (⟨rfl, hne, rfl⟩ | ⟨c, vs, es', hc, rfl, rfl, hes⟩)
    · exact ⟨false, _, .inr ⟨rfl, hne, rfl⟩, .inr ⟨by simp, rfl, rfl⟩⟩
    · exact ⟨true, vs, .inl ⟨rfl, c, hc, rfl⟩, .inl ⟨rfl, es', _, hes, rfl, rfl⟩⟩

omit hlast in
theorem yields_argumentList {expression : Parser Expr} {bound : Nat} {es : List Expr} :
    (argumentList expression bound).Yields last ts es rest ↔
      ((ts.headD last).kind = .rightParen ∧ es = [] ∧ rest = ts) ∨
        ((ts.headD last).kind ≠ .rightParen ∧
          (arguments expression bound 0).Yields last ts es rest) := by
  simp only [argumentList, yields_bind, yields_check, yields_ite, yields_pure]
  constructor
  · rintro ⟨b, us, ⟨rfl, rfl⟩, h⟩
    simpa using h
  · intro h
    exact ⟨_, _, ⟨rfl, rfl⟩, by simpa using h⟩

theorem yields_calls {expression : Parser Expr} {bound rounds : Nat} {f e : Expr} :
    (calls expression bound (rounds + 1) f).Yields last ts e rest ↔
      ((ts.headD last).kind ≠ .leftParen ∧ e = f ∧ rest = ts) ∨
        ∃ l us es r vs, l.kind = .leftParen ∧ ts = l :: us ∧
          (argumentList expression bound).Yields last us es (r :: vs) ∧ r.kind = .rightParen ∧
          (calls expression bound rounds (.call f es r)).Yields last vs e rest := by
  have hleft : Kind.leftParen ≠ .endOfFile := by decide
  have hright : Kind.rightParen ≠ .endOfFile := by decide
  simp only [calls, yields_bind, yields_ite, yields_accept hlast hleft, yields_expect hlast hright,
    yields_pure]
  constructor
  · rintro ⟨b, us, ⟨rfl, l, hl, rfl⟩ | ⟨rfl, hne, rfl⟩, h⟩
    · obtain ⟨-, es, us', hes, r, vs, ⟨hr, rfl⟩, hcalls⟩ := h.resolve_right (by simp)
      exact .inr ⟨l, us, es, r, vs, hl, rfl, hes, hr, hcalls⟩
    · obtain ⟨-, rfl, rfl⟩ := h.resolve_left (by simp)
      exact .inl ⟨hne, rfl, rfl⟩
  · rintro (⟨hne, rfl, rfl⟩ | ⟨l, us, es, r, vs, hl, rfl, hes, hr, hcalls⟩)
    · exact ⟨false, _, .inr ⟨rfl, hne, rfl⟩, .inr ⟨by simp, rfl, rfl⟩⟩
    · exact ⟨true, us, .inl ⟨rfl, l, hl, rfl⟩, .inl ⟨rfl, es, _, hes, r, vs, ⟨hr, rfl⟩, hcalls⟩⟩

omit hlast in
theorem yields_literal {t : Token} {e : Expr} :
    (match t.literal with
      | some literal => pure (.constant (constantOf literal))
      | none => failAt t .expectedExpression : Parser Expr).Yields last ts e rest ↔
      ∃ literal, t.literal = some literal ∧ e = .constant (constantOf literal) ∧ rest = ts := by
  cases t.literal with
  | none => simp [not_yields_failAt]
  | some literal => simp [yields_pure]

theorem yields_primary {expression : Parser Expr} {e : Expr} :
    (primary expression).Yields last ts e rest ↔
      (∃ t c, Denotes t c ∧ ts = t :: rest ∧ e = .constant c) ∨
        (∃ t, t.kind = .identifier ∧ ts = t :: rest ∧ e = .variable t) ∨
        ∃ l us inner r, l.kind = .leftParen ∧ ts = l :: us ∧
          expression.Yields last us inner (r :: rest) ∧ r.kind = .rightParen ∧ e = .group inner := by
  have hright : Kind.rightParen ≠ .endOfFile := by decide
  rw [primary, yields_peek_bind]
  cases ts with
  | nil =>
    rw [List.headD_nil, hlast]
    simp [not_yields_fail]
  | cons t us =>
    rw [List.headD_cons]
    constructor
    · intro h
      split at h
      case h_1 hkind =>
        rw [yields_advance_bind, yields_pure] at h
        obtain ⟨rfl, rfl⟩ := h
        exact .inl ⟨t, _, .false hkind, rfl, rfl⟩
      case h_2 hkind =>
        rw [yields_advance_bind, yields_pure] at h
        obtain ⟨rfl, rfl⟩ := h
        exact .inl ⟨t, _, .true hkind, rfl, rfl⟩
      case h_3 hkind =>
        rw [yields_advance_bind, yields_pure] at h
        obtain ⟨rfl, rfl⟩ := h
        exact .inl ⟨t, _, .empty hkind, rfl, rfl⟩
      case h_4 hkind | h_5 hkind =>
        rw [yields_advance_bind] at h
        obtain ⟨literal, hl, rfl, rfl⟩ := yields_literal.1 h
        cases literal with
        | number x => exact .inl ⟨t, _, .number (by simp [hkind]) hl, rfl, rfl⟩
        | text x => exact .inl ⟨t, _, .text (by simp [hkind]) hl, rfl, rfl⟩
      case h_6 hkind =>
        rw [yields_advance_bind, yields_pure] at h
        obtain ⟨rfl, rfl⟩ := h
        exact .inr (.inl ⟨t, hkind, rfl, rfl⟩)
      case h_7 hkind =>
        rw [yields_advance_bind] at h
        simp only [yields_bind, yields_expect hlast hright, yields_pure] at h
        obtain ⟨inner, vs, hinner, r, ws, ⟨hr, rfl⟩, rfl, rfl⟩ := h
        exact .inr (.inr ⟨t, us, inner, r, hkind, rfl, hinner, hr, rfl⟩)
      case h_8 => exact absurd h not_yields_fail
    · intro h
      rcases h with ⟨_, c, hc, ⟨⟩, rfl⟩ | ⟨_, hkind, ⟨⟩, rfl⟩ |
        ⟨_, _, inner, r, hkind, ⟨⟩, hinner, hr, rfl⟩
      · cases hc with
        | true hkind | false hkind | empty hkind =>
          simp only [hkind, yields_advance_bind, yields_pure, and_self]
        | number hkind hl | text hkind hl =>
          rcases hkind with hkind | hkind <;>
          · simp only [hkind, yields_advance_bind]
            exact yields_literal.2 ⟨_, hl, rfl, rfl⟩
      · simp only [hkind, yields_advance_bind, yields_pure, and_self]
      · simp only [hkind]
        rw [yields_advance_bind]
        simp only [yields_bind, yields_expect hlast hright, yields_pure]
        exact ⟨inner, _, hinner, r, _, ⟨hr, rfl⟩, rfl, rfl⟩

/-! ### Blocks -/

theorem yields_endOfLine {u : Unit} :
    endOfLine.Yields last ts u rest ↔ ∃ n, n.kind = .newline ∧ ts = n :: rest := by
  have hnewline : Kind.newline ≠ .endOfFile := by decide
  simp only [endOfLine, yields_bind, yields_expect hlast hnewline, yields_pure]
  constructor
  · rintro ⟨n, us, ⟨hn, rfl⟩, -, rfl⟩
    exact ⟨n, hn, rfl⟩
  · rintro ⟨n, hn, rfl⟩
    exact ⟨n, _, ⟨hn, rfl⟩, trivial, rfl⟩

omit hlast in
theorem yields_statements {statement : Parser Stmt} {bound : Nat} {ss : List Stmt} :
    (statements statement (bound + 1)).Yields last ts ss rest ↔
      (((ts.headD last).kind = .dedent ∨ (ts.headD last).kind = .endOfFile) ∧ ss = [] ∧ rest = ts) ∨
        (¬ ((ts.headD last).kind = .dedent ∨ (ts.headD last).kind = .endOfFile) ∧
          ∃ s us ss', statement.Yields last ts s us ∧
            (statements statement bound).Yields last us ss' rest ∧ ss = s :: ss') := by
  rw [statements, yields_peek_bind]
  simp only [yields_ite, Bool.or_eq_true, decide_eq_true_eq, yields_pure]
  exact or_congr_right (and_congr_right fun _ => yields_recovering_bind)

theorem yields_block {statement : Parser Stmt} {bound : Nat} {ss : List Stmt} :
    (block statement bound).Yields last ts ss rest ↔
      ∃ n i us d, n.kind = .newline ∧ i.kind = .indent ∧ ts = n :: i :: us ∧
        (statements statement bound).Yields last us ss (d :: rest) ∧ ss ≠ [] ∧ d.kind = .dedent := by
  have hindent : Kind.indent ≠ .endOfFile := by decide
  have hdedent : Kind.dedent ≠ .endOfFile := by decide
  simp only [block, yields_bind, yields_endOfLine hlast, yields_accept hlast hindent, yields_ite,
    yields_expect hlast hdedent, yields_pure, not_yields_note, not_yields_fail, false_and,
    exists_false, and_false, or_false, false_or]
  constructor
  · rintro ⟨-, us, ⟨n, hn, rfl⟩, b, vs, h, hb, ss', ws, hss, hne, d, xs, ⟨hd, rfl⟩, rfl, rfl⟩
    obtain ⟨-, i, hi, rfl⟩ := h.resolve_right (by simp [hb])
    exact ⟨n, i, vs, d, hn, hi, rfl, hss, by simpa using hne, hd⟩
  · rintro ⟨n, i, us, d, hn, hi, rfl, hss, hne, hd⟩
    exact ⟨(), _, ⟨n, hn, rfl⟩, true, us, .inl ⟨rfl, i, hi, rfl⟩, rfl, ss, _, hss, by simpa using hne,
      d, _, ⟨hd, rfl⟩, rfl, rfl⟩

/-! ### Simple statements -/

theorem yields_change {expression : Parser Expr} {w : Token} {s : Stmt} :
    (change expression).Yields last (w :: ts) s rest ↔
      ∃ name q us e n, expression.Yields last ts (.variable name) (q :: us) ∧ q.kind = .equal ∧
        expression.Yields last us e (n :: rest) ∧ n.kind = .newline ∧ s = .change name e := by
  have hequal : Kind.equal ≠ .endOfFile := by decide
  rw [change, yields_advance_bind]
  simp only [yields_bind, yields_expect hlast hequal]
  constructor
  · rintro ⟨target, us, htarget, q, vs, ⟨hq, rfl⟩, e, ws, he, h⟩
    cases target with
    | «variable» name =>
      simp only [yields_bind, yields_endOfLine hlast, yields_pure] at h
      obtain ⟨-, xs, ⟨n, hn, rfl⟩, rfl, rfl⟩ := h
      exact ⟨name, q, vs, e, n, htarget, hq, he, hn, rfl⟩
    | _ => exact absurd h not_yields_failAt
  · rintro ⟨name, q, us, e, n, htarget, hq, he, hn, rfl⟩
    refine ⟨.variable name, _, htarget, q, us, ⟨hq, rfl⟩, e, _, he, ?_⟩
    simp only [yields_bind, yields_endOfLine hlast, yields_pure]
    exact ⟨(), _, ⟨n, hn, rfl⟩, trivial, rfl⟩

theorem yields_create {expression : Parser Expr} {w : Token} {s : Stmt} :
    (create expression).Yields last (w :: ts) s rest ↔
      ∃ name q us e n, name.kind = .identifier ∧ q.kind = .equal ∧ ts = name :: q :: us ∧
        expression.Yields last us e (n :: rest) ∧ n.kind = .newline ∧ s = .create name e := by
  have hequal : Kind.equal ≠ .endOfFile := by decide
  have hname : Kind.identifier ≠ .endOfFile := by decide
  rw [create, yields_advance_bind]
  simp only [yields_bind, yields_expect hlast hname, yields_expect hlast hequal,
    yields_endOfLine hlast, yields_pure]
  constructor
  · rintro ⟨name, us, ⟨hn, rfl⟩, q, vs, ⟨hq, rfl⟩, e, ws, he, -, xs, ⟨n, hn', rfl⟩, rfl, rfl⟩
    exact ⟨name, q, vs, e, n, hn, hq, rfl, he, hn', rfl⟩
  · rintro ⟨name, q, us, e, n, hn, hq, rfl, he, hn', rfl⟩
    exact ⟨name, _, ⟨hn, rfl⟩, q, us, ⟨hq, rfl⟩, e, _, he, (), _, ⟨n, hn', rfl⟩, rfl, rfl⟩

theorem yields_giveBack {expression : Parser Expr} {w : Token} {s : Stmt} :
    (giveBack expression).Yields last (w :: ts) s rest ↔
      (∃ m us e n, m.kind = .withWord ∧ ts = m :: us ∧ expression.Yields last us e (n :: rest) ∧
        n.kind = .newline ∧ s = .returnWith w e) ∨
        ∃ n, (ts.headD last).kind ≠ .withWord ∧ n.kind = .newline ∧ ts = n :: rest ∧
          s = .returnEmpty w := by
  have hwith : Kind.withWord ≠ .endOfFile := by decide
  rw [giveBack, yields_advance_bind]
  simp only [yields_bind, yields_accept hlast hwith, yields_ite, yields_endOfLine hlast, yields_pure]
  constructor
  · rintro ⟨b, us, ⟨rfl, m, hm, rfl⟩ | ⟨rfl, hne, rfl⟩, h⟩
    · obtain ⟨-, e, vs, he, -, ws, ⟨n, hn, rfl⟩, rfl, rfl⟩ := h.resolve_right (by simp)
      exact .inl ⟨m, us, e, n, hm, rfl, he, hn, rfl⟩
    · obtain ⟨-, -, vs, ⟨n, hn, rfl⟩, rfl, rfl⟩ := h.resolve_left (by simp)
      exact .inr ⟨n, hne, hn, rfl, rfl⟩
  · rintro (⟨m, us, e, n, hm, rfl, he, hn, rfl⟩ | ⟨n, hne, hn, rfl, rfl⟩)
    · exact ⟨true, us, .inl ⟨rfl, m, hm, rfl⟩, .inl ⟨rfl, e, _, he, (), _, ⟨n, hn, rfl⟩, rfl, rfl⟩⟩
    · exact ⟨false, _, .inr ⟨rfl, hne, rfl⟩, .inr ⟨by simp, (), _, ⟨n, hn, rfl⟩, rfl, rfl⟩⟩

theorem yields_expressionStatement {expression : Parser Expr} {s : Stmt} :
    (expressionStatement expression).Yields last ts s rest ↔
      ∃ e n, expression.Yields last ts e (n :: rest) ∧ n.kind = .newline ∧ s = .expression e := by
  rw [expressionStatement, yields_bind]
  constructor
  · rintro ⟨e, us, he, h⟩
    have hline : (do endOfLine; return .expression e : Parser Stmt).Yields last us s rest := by
      cases e with
      | «variable» name =>
        simp only [yields_bind (p := check .equal), yields_check, yields_ite, not_yields_fail,
          and_false, false_or] at h
        obtain ⟨b, vs, ⟨-, rfl⟩, -, h⟩ := h
        exact h
      | _ => exact h
    simp only [yields_bind, yields_endOfLine hlast, yields_pure] at hline
    obtain ⟨-, vs, ⟨n, hn, rfl⟩, rfl, rfl⟩ := hline
    exact ⟨e, n, he, hn, rfl⟩
  · rintro ⟨e, n, he, hn, rfl⟩
    refine ⟨e, _, he, ?_⟩
    -- the test for an equals sign after a variable fails, since a line end follows
    have hline : (do endOfLine; return .expression e : Parser Stmt).Yields last (n :: rest)
        (.expression e) rest := by
      simp only [yields_bind, yields_endOfLine hlast, yields_pure]
      exact ⟨(), _, ⟨n, hn, rfl⟩, trivial, rfl⟩
    cases e with
    | «variable» name =>
      simp only [yields_bind (p := check .equal), yields_check, yields_ite, not_yields_fail,
        and_false, false_or]
      exact ⟨_, _, ⟨rfl, rfl⟩, by simp [hn], hline⟩
    | _ => exact hline

/-! ### Compound statements -/

theorem yields_parameters {bound count : Nat} {ps : List Token} :
    (parameters (bound + 1) count).Yields last ts ps rest ↔
      count ≠ maxArguments ∧ ∃ p us, p.kind = .identifier ∧ ts = p :: us ∧
        ((ps = [p] ∧ (us.headD last).kind ≠ .comma ∧ rest = us) ∨
          ∃ c vs ps', c.kind = .comma ∧ us = c :: vs ∧ ps = p :: ps' ∧
            (parameters bound (count + 1)).Yields last vs ps' rest) := by
  have hcomma : Kind.comma ≠ .endOfFile := by decide
  have hname : Kind.identifier ≠ .endOfFile := by decide
  rw [parameters]
  simp only [yields_ite, yields_bind, not_yields_note, false_and, exists_false, and_false, false_or,
    yields_expect hlast hname, yields_accept hlast hcomma, yields_pure]
  refine and_congr_right fun _ => exists_congr fun p => exists_congr fun us => ?_
  rw [and_assoc]
  refine and_congr_right fun _ => and_congr_right fun _ => ?_
  constructor
  · rintro ⟨b, vs, ⟨rfl, c, hc, rfl⟩ | ⟨rfl, hne, rfl⟩, h⟩
    · obtain ⟨-, ps', us', hps, rfl, rfl⟩ := h.resolve_right (by simp)
      exact .inr ⟨c, vs, ps', hc, rfl, rfl, hps⟩
    · obtain ⟨-, rfl, rfl⟩ := h.resolve_left (by simp)
      exact .inl ⟨rfl, hne, rfl⟩
  · rintro (⟨rfl, hne, rfl⟩ | ⟨c, vs, ps', hc, rfl, rfl, hps⟩)
    · exact ⟨false, _, .inr ⟨rfl, hne, rfl⟩, .inr ⟨by simp, rfl, rfl⟩⟩
    · exact ⟨true, vs, .inl ⟨rfl, c, hc, rfl⟩, .inl ⟨rfl, ps', _, hps, rfl, rfl⟩⟩

theorem yields_define {statement : Parser Stmt} {bound : Nat} {w : Token} {s : Stmt} :
    (define statement bound).Yields last (w :: ts) s rest ↔
      ∃ name l us ps r vs ss, name.kind = .identifier ∧ l.kind = .leftParen ∧
        ts = name :: l :: us ∧ (parameterList bound).Yields last us ps (r :: vs) ∧
        r.kind = .rightParen ∧ (block statement bound).Yields last vs ss rest ∧
        s = .define name ps ss := by
  have hleft : Kind.leftParen ≠ .endOfFile := by decide
  have hright : Kind.rightParen ≠ .endOfFile := by decide
  have hname : Kind.identifier ≠ .endOfFile := by decide
  rw [define, yields_advance_bind]
  simp only [yields_bind, yields_expect hlast hname, yields_expect hlast hleft,
    yields_expect hlast hright, yields_pure]
  constructor
  · rintro ⟨name, _, ⟨hn, rfl⟩, l, us, ⟨hl, rfl⟩, ps, _, hps, r, vs, ⟨hr, rfl⟩, ss, _, hss, rfl, rfl⟩
    exact ⟨name, l, us, ps, r, vs, ss, hn, hl, rfl, hps, hr, hss, rfl⟩
  · rintro ⟨name, l, us, ps, r, vs, ss, hn, hl, rfl, hps, hr, hss, rfl⟩
    exact ⟨name, _, ⟨hn, rfl⟩, l, us, ⟨hl, rfl⟩, ps, _, hps, r, vs, ⟨hr, rfl⟩, ss, _, hss, rfl, rfl⟩

theorem yields_parameterList {bound : Nat} {ps : List Token} :
    (parameterList bound).Yields last ts ps rest ↔
      (∃ a us, a.kind = .acceptWord ∧ ts = a :: us ∧
        (parameters bound 0).Yields last us ps rest) ∨
        ((ts.headD last).kind ≠ .acceptWord ∧ ps = [] ∧ rest = ts) := by
  have haccept : Kind.acceptWord ≠ .endOfFile := by decide
  simp only [parameterList, yields_bind, yields_accept hlast haccept, yields_ite, yields_pure]
  constructor
  · rintro ⟨b, us, ⟨rfl, a, ha, rfl⟩ | ⟨rfl, hne, rfl⟩, h⟩
    · exact .inl ⟨a, us, ha, rfl, (h.resolve_right (by simp)).2⟩
    · exact .inr ⟨hne, (h.resolve_left (by simp)).2⟩
  · rintro (⟨a, us, ha, rfl, h⟩ | ⟨hne, rfl, rfl⟩)
    · exact ⟨true, us, .inl ⟨rfl, a, ha, rfl⟩, .inl ⟨rfl, h⟩⟩
    · exact ⟨false, _, .inr ⟨rfl, hne, rfl⟩, .inr ⟨by simp, rfl, rfl⟩⟩

theorem yields_alternatives {expression : Parser Expr} {body : Parser (List Stmt)} {bound : Nat}
    {r : Else} :
    (alternatives expression body (bound + 1)).Yields last ts r rest ↔
      ((ts.headD last).kind ≠ .otherwiseWord ∧ r = .nothing ∧ rest = ts) ∨
        ∃ w us, w.kind = .otherwiseWord ∧ ts = w :: us ∧
          ((∃ m vs e ws ss xs r', m.kind = .ifWord ∧ us = m :: vs ∧
              expression.Yields last vs e ws ∧ body.Yields last ws ss xs ∧
              (alternatives expression body bound).Yields last xs r' rest ∧
              r = .branch m e ss r') ∨
            ∃ ss, (us.headD last).kind ≠ .ifWord ∧ body.Yields last us ss rest ∧ r = .block ss) := by
  have hotherwise : Kind.otherwiseWord ≠ .endOfFile := by decide
  have hif : Kind.ifWord ≠ .endOfFile := by decide
  simp only [alternatives, yields_bind (p := accept .otherwiseWord), yields_peek_bind,
    yields_accept hlast hotherwise, yields_ite, yields_pure]
  constructor
  · rintro ⟨b, us, ⟨rfl, w, hw, rfl⟩ | ⟨rfl, hne, rfl⟩, h⟩
    · refine .inr ⟨w, us, hw, rfl, ?_⟩
      obtain ⟨-, h⟩ := h.resolve_right (by simp)
      simp only [yields_bind, yields_accept hlast hif, yields_ite, yields_pure] at h
      obtain ⟨b, vs, ⟨rfl, m, hm, rfl⟩ | ⟨rfl, hne, rfl⟩, h⟩ := h
      · obtain ⟨-, e, ws, he, ss, xs, hss, r', ys, hr, rfl, rfl⟩ := h.resolve_right (by simp)
        exact .inl ⟨m, vs, e, ws, ss, xs, r', hm, rfl, he, hss, hr, rfl⟩
      · obtain ⟨-, ss, ws, hss, rfl, rfl⟩ := h.resolve_left (by simp)
        exact .inr ⟨ss, hne, hss, rfl⟩
    · obtain ⟨-, rfl, rfl⟩ := h.resolve_left (by simp)
      exact .inl ⟨hne, rfl, rfl⟩
  · rintro (⟨hne, rfl, rfl⟩ | ⟨w, us, hw, rfl, h⟩)
    · exact ⟨false, _, .inr ⟨rfl, hne, rfl⟩, .inr ⟨by simp, rfl, rfl⟩⟩
    · refine ⟨true, us, .inl ⟨rfl, w, hw, rfl⟩, .inl ⟨rfl, ?_⟩⟩
      simp only [yields_bind, yields_accept hlast hif, yields_ite, yields_pure]
      rcases h with ⟨m, vs, e, ws, ss, xs, r', hm, rfl, he, hss, hr, rfl⟩ | ⟨ss, hne, hss, rfl⟩
      · exact ⟨true, vs, .inl ⟨rfl, m, hm, rfl⟩,
          .inl ⟨rfl, e, ws, he, ss, xs, hss, r', _, hr, rfl, rfl⟩⟩
      · exact ⟨false, _, .inr ⟨rfl, hne, rfl⟩, .inr ⟨by simp, ss, _, hss, rfl, rfl⟩⟩

omit hlast in
theorem yields_conditional {expression : Parser Expr} {statement : Parser Stmt} {bound : Nat}
    {w : Token} {s : Stmt} :
    (conditional expression statement bound).Yields last (w :: ts) s rest ↔
      ∃ e us ss vs r, expression.Yields last ts e us ∧
        (block statement bound).Yields last us ss vs ∧
        (alternatives expression (block statement bound) bound).Yields last vs r rest ∧
        s = .branch w e ss r := by
  rw [conditional, yields_advance_bind]
  simp only [yields_bind, yields_pure]
  constructor
  · rintro ⟨e, us, he, ss, vs, hss, r, _, hr, rfl, rfl⟩
    exact ⟨e, us, ss, vs, r, he, hss, hr, rfl⟩
  · rintro ⟨e, us, ss, vs, r, he, hss, hr, rfl⟩
    exact ⟨e, us, he, ss, vs, hss, r, _, hr, rfl, rfl⟩

theorem yields_repetition {expression : Parser Expr} {statement : Parser Stmt} {bound : Nat}
    {w : Token} {s : Stmt} :
    (repetition expression statement bound).Yields last (w :: ts) s rest ↔
      (∃ m us e vs ss, m.kind = .whileWord ∧ ts = m :: us ∧ expression.Yields last us e vs ∧
        (block statement bound).Yields last vs ss rest ∧ s = .repeatWhile w e ss) ∨
        ∃ e m us ss, (ts.headD last).kind ≠ .whileWord ∧ expression.Yields last ts e (m :: us) ∧
          m.kind = .timesWord ∧ (block statement bound).Yields last us ss rest ∧
          s = .repeatTimes w e ss := by
  have hwhile : Kind.whileWord ≠ .endOfFile := by decide
  have htimes : Kind.timesWord ≠ .endOfFile := by decide
  rw [repetition, yields_advance_bind]
  simp only [yields_bind, yields_accept hlast hwhile, yields_ite, yields_expect hlast htimes,
    yields_pure]
  constructor
  · rintro ⟨b, us, ⟨rfl, m, hm, rfl⟩ | ⟨rfl, hne, rfl⟩, h⟩
    · obtain ⟨-, e, vs, he, ss, _, hss, rfl, rfl⟩ := h.resolve_right (by simp)
      exact .inl ⟨m, us, e, vs, ss, hm, rfl, he, hss, rfl⟩
    · obtain ⟨-, e, vs, he, m, us, ⟨hm, rfl⟩, ss, _, hss, rfl, rfl⟩ := h.resolve_left (by simp)
      exact .inr ⟨e, m, us, ss, hne, he, hm, hss, rfl⟩
  · rintro (⟨m, us, e, vs, ss, hm, rfl, he, hss, rfl⟩ | ⟨e, m, us, ss, hne, he, hm, hss, rfl⟩)
    · exact ⟨true, us, .inl ⟨rfl, m, hm, rfl⟩, .inl ⟨rfl, e, vs, he, ss, _, hss, rfl, rfl⟩⟩
    · exact ⟨false, _, .inr ⟨rfl, hne, rfl⟩,
        .inr ⟨by simp, e, _, he, m, us, ⟨hm, rfl⟩, ss, _, hss, rfl, rfl⟩⟩

/-! ### Programs -/

omit hlast in
theorem yields_program {statement : Parser Stmt} {bound : Nat} {ss : List Stmt} :
    (program statement (bound + 1)).Yields last ts ss rest ↔
      ((ts.headD last).kind = .endOfFile ∧ ss = [] ∧ rest = ts) ∨
        (ts.headD last).kind ≠ .endOfFile ∧
          (((ts.headD last).kind = .dedent ∧
              (program statement bound).Yields last ts.tail ss rest) ∨
            (ts.headD last).kind ≠ .dedent ∧ ∃ s us ss', statement.Yields last ts s us ∧
              (program statement bound).Yields last us ss' rest ∧ ss = s :: ss') := by
  rw [program, yields_peek_bind]
  simp only [yields_ite, yields_pure]
  refine or_congr_right (and_congr_right fun _ => or_congr (and_congr_right fun _ => ?_)
    (and_congr_right fun _ => yields_recovering_bind))
  rw [yields_bind]
  constructor
  · rintro ⟨t, us, ht, h⟩
    obtain ⟨-, rfl⟩ := yields_advance.1 ht
    exact h
  · exact fun h => ⟨_, _, yields_advance.2 ⟨rfl, rfl⟩, h⟩

end Grammar

end Offside
