import Offside.Proofs.Grammar.Isolation

/-!
# Tokens that parsers take

Skipping to the next statement takes nothing where a block or the text ends, so what other parsers
take has to carry parsing to its end. An expression takes a token before it can succeed, and so does a
statement. A statement that fails at its first token is left by skipping that token, unless it is a
dedent.

* `Parser.Takes`: parsers that take a number of tokens before they succeed;
* `Grammar.takes_expression`, `Grammar.takes_statement`: expressions and statements take one;
* `Grammar.rest_recovering`: a statement is left behind by a token at least, kept or given up.
-/

namespace Offside

namespace Parser

variable {α β : Type} {last : Token} {k j n : Nat} {ts us : List Token} {t : Token}

/-! ### Tokens taken -/

/-- What a parser leaves is an end of what was there, and shorter by `k` tokens if it succeeds. -/
structure TakesAt (last : Token) (k : Nat) (p : Parser α) (ts : List Token) : Prop where
  suffix : (p last ts).rest <:+ ts
  taken : ∀ a, (p last ts).outcome = .ok a → (p last ts).rest.length + k ≤ ts.length

/-- A parser that takes at least `k` tokens before it succeeds. -/
def Takes (last : Token) (k : Nat) (p : Parser α) : Prop := ∀ ts, TakesAt last k p ts

theorem TakesAt.of_error {p : Parser α} {d : Diagnostic} {notes : List Diagnostic}
    (h : p last ts = ⟨.error d, notes, ts⟩) : TakesAt last k p ts := by
  refine ⟨?_, fun a ha => ?_⟩
  · rw [h]
  · rw [h] at ha
    cases ha

theorem TakesAt.mono {p : Parser α} (hp : TakesAt last k p ts) (h : j ≤ k) : TakesAt last j p ts :=
  ⟨hp.suffix, fun a ha => Nat.le_trans (Nat.add_le_add_left h _) (hp.taken a ha)⟩

theorem TakesAt.bind {p : Parser α} {f : α → Parser β} (hp : TakesAt last k p ts)
    (hf : ∀ a, Takes last 0 (f a)) : TakesAt last k (p >>= f) ts := by
  obtain ⟨hsuffix, htaken⟩ := hp
  rcases hr : p last ts with ⟨outcome, notes, rest⟩
  rw [hr] at hsuffix htaken
  cases outcome with
  | error d =>
    constructor
    · rw [bind_of_error hr]
      exact hsuffix
    · rw [bind_of_error hr]
      exact nofun
  | ok a =>
    have hlength := htaken a rfl
    constructor
    · rw [bind_of_ok hr]
      exact (hf a rest).suffix.trans hsuffix
    · intro b hb
      rw [bind_of_ok hr] at hb ⊢
      have := (hf a rest).taken b hb
      dsimp only at this hlength ⊢
      omega

theorem Takes.bind {p : Parser α} {f : α → Parser β} (hp : Takes last k p)
    (hf : ∀ a, Takes last 0 (f a)) : Takes last k (p >>= f) :=
  fun ts => (hp ts).bind hf

theorem Takes.mono {p : Parser α} (hp : Takes last k p) (h : j ≤ k) : Takes last j p :=
  fun ts => (hp ts).mono h

theorem Takes.pure {a : α} : Takes last 0 (Pure.pure a : Parser α) :=
  fun _ => ⟨List.suffix_rfl, fun _ _ => Nat.le_refl _⟩

theorem Takes.fail {e : GrammarError} : Takes last k (fail e : Parser α) :=
  fun _ => .of_error rfl

theorem Takes.failAt {e : GrammarError} : Takes last k (failAt t e : Parser α) :=
  fun _ => .of_error rfl

theorem Takes.check {kind : Kind} : Takes last 0 (check kind) :=
  fun _ => ⟨List.suffix_rfl, fun _ _ => Nat.le_refl _⟩

theorem Takes.note {e : GrammarError} : Takes last 0 (note e) :=
  fun _ => ⟨List.suffix_rfl, fun _ _ => Nat.le_refl _⟩

theorem Takes.ite {c : Prop} [Decidable c] {p q : Parser α} (hp : c → Takes last k p)
    (hq : ¬ c → Takes last k q) : Takes last k (if c then p else q) := by
  by_cases h : c
  · rw [if_pos h]
    exact hp h
  · rw [if_neg h]
    exact hq h

/-- A parser that looks at the next token first. -/
theorem Takes.peek {f : Token → Parser β} (hend : TakesAt last k (f last) [])
    (h : ∀ t us, TakesAt last k (f t) (t :: us)) : Takes last k (peek >>= f) := by
  intro ts
  cases ts with
  | nil => exact ⟨hend.suffix, hend.taken⟩
  | cons t us => exact ⟨(h t us).suffix, (h t us).taken⟩

/-- A token that is there is taken. -/
theorem TakesAt.advance {f : Token → Parser β} (h : Takes last k (f t)) :
    TakesAt last (k + 1) (advance >>= f) (t :: us) := by
  have hadvance : (Parser.advance >>= f) last (t :: us) = f t last us := rfl
  refine ⟨?_, fun a ha => ?_⟩
  · rw [hadvance]
    exact (h us).suffix.trans (List.suffix_cons t us)
  · rw [hadvance] at ha ⊢
    have := (h us).taken a ha
    rw [List.length_cons]
    omega

theorem Takes.accept {kind : Kind} : Takes last 0 (accept kind) := by
  intro ts
  unfold Parser.accept
  by_cases h : (ts.headD last).kind = kind
  · constructor
    · rw [if_pos h]
      exact List.tail_suffix ts
    · rw [if_pos h]
      intro _ _
      exact List.Sublist.length_le (List.tail_sublist ts)
  · constructor
    · rw [if_neg h]
    · rw [if_neg h]
      exact fun _ _ => Nat.le_refl _

theorem Takes.expect (hlast : last.kind = .endOfFile) {kind : Kind} {what : String}
    (hkind : kind ≠ .endOfFile) : Takes last 1 (expect kind what) := by
  intro ts
  by_cases h : (ts.headD last).kind = kind
  · obtain ⟨t, us, rfl, ht⟩ := exists_cons_of_kind hlast h hkind
    have htakes : Parser.expect kind what last (t :: us) = ⟨.ok t, [], us⟩ := if_pos ht
    constructor
    · rw [htakes]
      exact List.suffix_cons t us
    · rw [htakes]
      exact fun _ _ => Nat.le_refl _
  · exact .of_error (if_neg h)

end Parser

namespace Grammar

open Offside.Parser

variable {α : Type} {last : Token} {n : Nat}

/-- A parser whose answers keep tokens leaves an end of what was there. -/
theorem Keeps.takes {marks : α → List Mark} {p : Parser α} (h : Keeps last marks p) :
    Takes last 0 p := by
  intro ts
  obtain ⟨used, hused, -⟩ := h [] [] ts ⟨List.nil_sublist _, by simp⟩
  have hsuffix : (p last ts).rest <:+ ts := ⟨used, hused.symm⟩
  exact ⟨hsuffix, fun _ _ => hsuffix.length_le⟩

section

variable (hlast : last.kind = .endOfFile)
include hlast

/-! ### What expressions take -/

theorem takes_operands {connective? : Kind → Option Connective}
    (hend : connective? .endOfFile = none) {operand : Parser Expr} (hoperand : Takes last 0 operand)
    (bound : Nat) (left : Expr) : Takes last 0 (operands connective? operand bound left) := by
  induction bound generalizing left with
  | zero => exact Takes.pure
  | succ bound ih =>
    refine Takes.peek ?_ fun t us => ?_
    · simp only [hlast, hend]
      exact Takes.pure []
    · cases connective? t.kind with
      | none => exact Takes.pure _
      | some c => exact (TakesAt.advance (hoperand.bind fun right => ih _)).mono (Nat.zero_le _)

omit hlast in
theorem endOfFile_of_mem_levels {connective? : Kind → Option Connective}
    (h : connective? ∈ levels) : connective? .endOfFile = none := by
  simp only [levels, List.mem_cons, List.not_mem_nil, or_false] at h
  rcases h with rfl | rfl | rfl | rfl | rfl <;> rfl

theorem takes_levels {operand : Parser Expr} (hoperand : Takes last 1 operand) (bound : Nat)
    {ls : List (Kind → Option Connective)} (hls : ∀ c ∈ ls, c .endOfFile = none) :
    Takes last 1 (ls.foldr (level bound) operand) := by
  induction ls with
  | nil => exact hoperand
  | cons l ls ih =>
    obtain ⟨hl, hls⟩ := List.forall_mem_cons.1 hls
    have hinner := ih hls
    exact hinner.bind fun left => takes_operands hlast hl (hinner.mono (Nat.zero_le _)) bound left

theorem takes_unary {operand : Parser Expr} (hoperand : Takes last 1 operand) (bound : Nat) :
    Takes last 1 (unary operand bound) := by
  induction bound with
  | zero => exact hoperand
  | succ bound ih =>
    refine Takes.peek ?_ fun t us => ?_
    · simp only [hlast, unary?]
      exact hoperand []
    · cases unary? t.kind with
      | none => exact hoperand _
      | some op =>
        have hrest : Takes last 0 (unary operand bound >>= fun e => pure (Expr.unary op t e)) :=
          (ih.mono (Nat.zero_le _)).bind fun _ => Takes.pure
        exact (TakesAt.advance hrest).mono (Nat.le_refl _)

theorem takes_primary {inner : Parser Expr} (hinner : Takes last 0 inner) :
    Takes last 1 (primary inner) := by
  have hgroup : Takes last 0 (do
      let e ← inner
      let _ ← expect .rightParen "')' after the expression"
      return Expr.group e) :=
    hinner.bind fun _ => ((Takes.expect hlast (by decide)).mono (Nat.zero_le _)).bind fun _ =>
      Takes.pure
  refine Takes.peek ?_ fun t us => ?_
  · simp only [hlast]
    exact Takes.fail []
  · split
    · exact TakesAt.advance Takes.pure
    · exact TakesAt.advance Takes.pure
    · exact TakesAt.advance Takes.pure
    · apply TakesAt.advance
      split
      · exact Takes.pure
      · exact Takes.failAt
    · apply TakesAt.advance
      split
      · exact Takes.pure
      · exact Takes.failAt
    · exact TakesAt.advance Takes.pure
    · exact TakesAt.advance hgroup
    · exact Takes.fail _

omit hlast in
theorem takes_arguments {inner : Parser Expr} (hinner : Takes last 0 inner) (bound count : Nat) :
    Takes last 0 (arguments inner bound count) := by
  induction bound generalizing count with
  | zero => exact Takes.pure
  | succ bound ih =>
    have hrest : Takes last 0 (do
        let arg ← inner
        if ← accept .comma then return arg :: (← arguments inner bound (count + 1))
        else return [arg]) :=
      hinner.bind fun arg => Takes.accept.bind fun more =>
        Takes.ite (fun _ => (ih _).bind fun _ => Takes.pure) fun _ => Takes.pure
    rw [arguments]
    exact Takes.ite (fun _ => Takes.note.bind fun _ => hrest) fun _ => hrest

theorem takes_calls {inner : Parser Expr} (hinner : Takes last 0 inner) (bound rounds : Nat)
    (callee : Expr) : Takes last 0 (calls inner bound rounds callee) := by
  induction rounds generalizing callee with
  | zero => exact Takes.pure
  | succ rounds ih =>
    have hlist : Takes last 0 (argumentList inner bound) :=
      Takes.check.bind fun _ => Takes.ite (fun _ => Takes.pure) fun _ =>
        takes_arguments hinner bound 0
    refine Takes.accept.bind fun opened => Takes.ite (fun _ => ?_) fun _ => Takes.pure
    refine hlist.bind fun args => ?_
    exact ((Takes.expect hlast (by decide)).mono (Nat.zero_le _)).bind fun paren => ih _

/-- An expression takes a token. -/
theorem takes_expression (bound : Nat) : Takes last 1 (expression bound) := by
  induction bound with
  | zero => exact Takes.fail
  | succ bound ih =>
    have hinner : Takes last 0 (expression bound) := ih.mono (Nat.zero_le _)
    have hcall : Takes last 1 (call (expression bound) bound) :=
      (takes_primary hlast hinner).bind fun callee => takes_calls hlast hinner bound bound callee
    exact takes_levels hlast (takes_unary hlast hcall bound) bound
      fun _ => endOfFile_of_mem_levels

/-! ### What statements take -/

theorem takes_endOfLine : Takes last 1 endOfLine :=
  (Takes.expect hlast (by decide)).bind fun _ => Takes.pure

/-- A statement takes a token. What comes after its first word is left to the tokens it keeps. -/
theorem takes_statementOf {expression : Parser Expr} (hexpr : Takes last 1 expression)
    (hkeeps : Keeps last Expr.marks expression) {inner : Parser Stmt}
    (hinner : Keeps last Stmt.marks inner) (bound : Nat) :
    Takes last 1 (statementOf expression inner bound) := by
  have hexpr₀ : Takes last 0 expression := hexpr.mono (Nat.zero_le _)
  have hexpect : ∀ {kind : Kind} (what : String), kind ≠ .endOfFile →
      Takes last 0 (expect kind what) :=
    fun _ hkind => (Takes.expect hlast hkind).mono (Nat.zero_le _)
  have hline : Takes last 0 endOfLine := (takes_endOfLine hlast).mono (Nat.zero_le _)
  have hblock : Takes last 0 (block inner bound) := (keeps_block hlast hinner bound).takes
  have hstatement : Takes last 1 (expressionStatement expression) := by
    refine hexpr.bind fun value => ?_
    split
    · exact Takes.check.bind fun _ => Takes.ite (fun _ => Takes.fail) fun _ =>
        hline.bind fun _ => Takes.pure
    · exact hline.bind fun _ => Takes.pure
  refine Takes.peek ?_ fun t us => ?_
  · simp only [hlast]
    exact hstatement []
  · split
    · -- `change`
      apply TakesAt.advance
      refine hexpr₀.bind fun target => (hexpect _ (by decide)).bind fun equal => ?_
      refine hexpr₀.bind fun value => ?_
      split
      · exact hline.bind fun _ => Takes.pure
      · exact Takes.failAt
    · -- `create`
      apply TakesAt.advance
      refine (hexpect _ (by decide)).bind fun name => (hexpect _ (by decide)).bind fun _ => ?_
      exact hexpr₀.bind fun value => hline.bind fun _ => Takes.pure
    · -- `define`
      apply TakesAt.advance
      refine (hexpect _ (by decide)).bind fun name => (hexpect _ (by decide)).bind fun _ => ?_
      refine (keeps_parameterList hlast bound).takes.bind fun params => ?_
      exact (hexpect _ (by decide)).bind fun _ => hblock.bind fun _ => Takes.pure
    · -- `if`
      apply TakesAt.advance
      refine hexpr₀.bind fun cond => hblock.bind fun body => ?_
      exact (keeps_alternatives hlast hkeeps (keeps_block hlast hinner bound) bound).takes.bind
        fun _ => Takes.pure
    · exact Takes.fail _
    · -- `repeat`
      apply TakesAt.advance
      refine Takes.accept.bind fun isWhile => Takes.ite (fun _ => ?_) fun _ => ?_
      · exact hexpr₀.bind fun cond => hblock.bind fun _ => Takes.pure
      · exact hexpr₀.bind fun count => (hexpect _ (by decide)).bind fun _ => hblock.bind fun _ =>
          Takes.pure
    · -- `return`
      apply TakesAt.advance
      refine Takes.accept.bind fun withValue => Takes.ite (fun _ => ?_) fun _ => ?_
      · exact hexpr₀.bind fun value => hline.bind fun _ => Takes.pure
      · exact hline.bind fun _ => Takes.pure
    · exact hstatement _

theorem takes_statement (bound : Nat) : Takes last 1 (statement bound) := by
  cases bound with
  | zero => exact Takes.fail
  | succ bound =>
    exact takes_statementOf hlast (takes_expression hlast _) (keeps_expression hlast _)
      (keeps_statement hlast bound) bound

/-! ### What recovery takes -/

omit hlast in
/-- Only a dedent is left where it stands. -/
theorem synchronize_cons {t : Token} (ht : t.kind ≠ .dedent) (us : List Token) :
    synchronize (t :: us) <:+ us := by
  rw [synchronize]
  split
  · next h => exact absurd h ht
  · next h =>
    rw [skipBlock, h]
    exact skipBlock_suffix 1 us
  · exact skipOrphan_suffix us
  · exact skipStatement_suffix us

omit hlast in
/-- A statement that starts before the end of a block and of the text is left behind by a token at
least, whether it is kept or given up. -/
theorem rest_recovering {p : Parser α} {t : Token} {us : List Token} (hp : TakesAt last 1 p (t :: us))
    (ht : t.kind ≠ .dedent) : (recovering p last (t :: us)).rest <:+ us := by
  obtain ⟨hsuffix, htaken⟩ := hp
  unfold recovering
  rcases hr : p last (t :: us) with ⟨outcome, notes, rest⟩
  rw [hr] at hsuffix htaken
  rcases List.suffix_cons_iff.1 hsuffix with hall | hless
  · -- nothing was taken, so the statement failed at its first token
    obtain rfl : rest = t :: us := hall
    cases outcome with
    | ok a => exact absurd (htaken a rfl) (Nat.not_succ_le_self _)
    | error d => exact synchronize_cons ht us
  · cases outcome with
    | ok a => exact hless
    | error d => exact (synchronize_suffix rest).trans hless

end

end Grammar

end Offside
