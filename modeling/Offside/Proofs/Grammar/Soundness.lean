import Offside.Proofs.Grammar.Yields

/-!
# What is parsed is derived

Whatever parsing answers without a diagnostic is derived by the grammar from the tokens that it took.
The numbers that bound loops and nesting play no part in this, except that lists of arguments and
parameters need as much as there are tokens ahead.

* `Sound`: a parser whose answers are derived;
* `ranked`: the parser of the expressions of a rank;
* `sound_expression`, `sound_statement`: expressions and statements.
-/

namespace Offside.Grammar

open Offside.Parser

variable {α : Type} {last : Token}

/-- On fewer than `n` tokens, an answer without a diagnostic is derived from the tokens taken. -/
def Sound (last : Token) (n : Nat) (phrase : α → Phrase) (p : Parser α) : Prop :=
  ∀ ⦃ts : List Token⦄ ⦃a : α⦄ ⦃rest : List Token⦄, ts.length < n → p.Yields last ts a rest →
    ∃ used, ts = used ++ rest ∧ Derives (phrase a) used

/-! ### Ranks -/

/-- The operators of a rank, as parsing tells them apart. -/
def table : Rank → Kind → Option Connective
  | .disjunction => disjunction?
  | .conjunction => conjunction?
  | .comparison => comparison?
  | .sum => additive?
  | .product => multiplicative?
  | .prefixed | .applied | .primary => fun _ => none

theorem table_eq_some {rank : Rank} {kind : Kind} {c : Connective} :
    table rank kind = some c ↔ Operator rank kind c := by
  constructor
  · intro h
    cases rank <;> cases kind <;> first | cases h; constructor | cases h
  · rintro ⟨⟩ <;> rfl

theorem unary?_eq_some {kind : Kind} {op : UnaryOp} : unary? kind = some op ↔ Sign kind op := by
  constructor
  · intro h
    cases kind <;> first | cases h; constructor | cases h
  · rintro ⟨⟩ <;> rfl

/-- The levels of operators from a rank on. -/
def tables : Rank → List (Kind → Option Connective)
  | .disjunction => levels
  | .conjunction => levels.drop 1
  | .comparison => levels.drop 2
  | .sum => levels.drop 3
  | .product => levels.drop 4
  | .prefixed | .applied | .primary => []

/-- The parser of the expressions of a rank, from the parser of the expressions inside them. -/
def ranked (inner : Parser Expr) (bound : Nat) : Rank → Parser Expr
  | .primary => primary inner
  | .applied => call inner bound
  | rank => (tables rank).foldr (level bound) (unary (call inner bound) bound)

variable (hlast : last.kind = .endOfFile) {n : Nat}
include hlast

/-! ### Operators -/

theorem exists_cons_of_table {rank : Rank} {ts : List Token} {c : Connective}
    (h : table rank (ts.headD last).kind = some c) :
    ∃ t us, ts = t :: us ∧ Operator rank t.kind c := by
  cases ts with
  | nil =>
    rw [List.headD_nil, hlast] at h
    cases table_eq_some.1 h
  | cons t us => exact ⟨t, us, rfl, table_eq_some.1 h⟩

/-- The further operands of a rank continue an expression of that rank. -/
theorem sound_operands {rank : Rank} {operand : Parser Expr}
    (hoperand : Sound last n (.expression rank.next) operand) (bound : Nat) {left e : Expr}
    {ts rest : List Token} (hlen : ts.length < n)
    (h : (operands (table rank) operand bound left).Yields last ts e rest) :
    ∃ used, ts = used ++ rest ∧ ∀ before, Derives (.expression rank left) before →
      Derives (.expression rank e) (before ++ used) := by
  induction bound generalizing left ts with
  | zero =>
    obtain ⟨rfl, rfl⟩ := yields_pure.1 h
    exact ⟨[], rfl, fun before hbefore => by rwa [List.append_nil]⟩
  | succ bound ih =>
    rcases yields_operands.1 h with ⟨-, rfl, rfl⟩ | ⟨c, right, us, hc, hright, hrest⟩
    · exact ⟨[], rfl, fun before hbefore => by rwa [List.append_nil]⟩
    · obtain ⟨t, vs, rfl, hop⟩ := exists_cons_of_table hlast hc
      have hlen' : vs.length < n := by simp at hlen; omega
      obtain ⟨used, rfl, hused⟩ := hoperand hlen' hright
      have hlen'' : us.length < n := by simp at hlen'; omega
      obtain ⟨used', rfl, hused'⟩ := ih hlen'' hrest
      refine ⟨t :: (used ++ used'), by simp, fun before hbefore => ?_⟩
      have hmore := hused' _ (.binary hbefore hop hused)
      simpa using hmore

theorem sound_level (rank : Rank) {operand : Parser Expr}
    (hoperand : Sound last n (.expression rank.next) operand) (bound : Nat) :
    Sound last n (.expression rank) (level bound (table rank) operand) := by
  intro ts e rest hlen h
  obtain ⟨left, us, hleft, hmore⟩ := yields_bind.1 h
  obtain ⟨used, rfl, hused⟩ := hoperand hlen hleft
  have hlen' : us.length < n := by simp at hlen; omega
  obtain ⟨used', rfl, hused'⟩ := sound_operands hlast hoperand bound hlen' hmore
  exact ⟨used ++ used', by simp, hused' _ (.tighter hused)⟩

theorem sound_unary {operand : Parser Expr} (hoperand : Sound last n (.expression .applied) operand)
    (bound : Nat) : Sound last n (.expression .prefixed) (unary operand bound) := by
  induction bound with
  | zero =>
    intro ts e rest hlen h
    obtain ⟨used, hts, hused⟩ := hoperand hlen h
    exact ⟨used, hts, .tighter hused⟩
  | succ bound ih =>
    intro ts e rest hlen h
    rcases yields_unary.1 h with ⟨-, h⟩ | ⟨op, inner, hop, hinner, rfl⟩
    · obtain ⟨used, hts, hused⟩ := hoperand hlen h
      exact ⟨used, hts, .tighter hused⟩
    · cases ts with
      | nil =>
        rw [List.headD_nil, hlast] at hop
        cases hop
      | cons t us =>
        have hlen' : us.length < n := by simp at hlen; omega
        obtain ⟨used, rfl, hused⟩ := ih hlen' hinner
        exact ⟨t :: used, rfl, .unary (unary?_eq_some.1 hop) hused⟩

/-! ### Calls and primary expressions -/

section

variable {inner : Parser Expr} (hinner : Sound last n (.expression .disjunction) inner)
include hinner

theorem sound_arguments (bound count : Nat) {ts rest : List Token} {es : List Expr}
    (hbound : ts.length < bound) (hlen : ts.length < n) (hcount : count ≤ maxArguments)
    (h : (arguments inner bound count).Yields last ts es rest) :
    ∃ used, ts = used ++ rest ∧ Derives (.arguments es) used ∧ count + es.length ≤ maxArguments := by
  induction bound generalizing count ts es with
  | zero => omega
  | succ bound ih =>
    obtain ⟨hne, e, us, he, hmore⟩ := (yields_arguments hlast).1 h
    obtain ⟨used, rfl, hused⟩ := hinner hlen he
    rcases hmore with ⟨rfl, -, rfl⟩ | ⟨c, vs, es', hc, rfl, rfl, hes⟩
    · exact ⟨used, rfl, .argument hused, by simp; omega⟩
    · simp only [List.length_append, List.length_cons] at hbound hlen
      obtain ⟨used', rfl, hused', hlength⟩ := ih (count + 1) (by omega) (by omega) (by omega) hes
      refine ⟨used ++ c :: used', by simp, .moreArguments hused hc hused', ?_⟩
      rw [List.length_cons]
      omega

/-- Calls continue an expression that can be called. -/
theorem sound_calls (rounds : Nat) {f e : Expr} {ts rest : List Token} (hlen : ts.length ≤ n)
    (h : (calls inner n rounds f).Yields last ts e rest) :
    ∃ used, ts = used ++ rest ∧ ∀ before, Derives (.expression .applied f) before →
      Derives (.expression .applied e) (before ++ used) := by
  induction rounds generalizing f ts with
  | zero =>
    obtain ⟨rfl, rfl⟩ := yields_pure.1 h
    exact ⟨[], rfl, fun before hbefore => by rwa [List.append_nil]⟩
  | succ rounds ih =>
    rcases (yields_calls hlast).1 h with ⟨-, rfl, rfl⟩ | ⟨l, us, es, r, vs, hl, rfl, hes, hr, hmore⟩
    · exact ⟨[], rfl, fun before hbefore => by rwa [List.append_nil]⟩
    rw [List.length_cons] at hlen
    rcases yields_argumentList.1 hes with ⟨-, rfl, rfl⟩ | ⟨-, hargs'⟩
    · rw [List.length_cons] at hlen
      obtain ⟨used, rfl, hused⟩ := ih (by omega) hmore
      refine ⟨l :: r :: used, rfl, fun before hbefore => ?_⟩
      simpa using hused _ (.call hbefore hl hr)
    · obtain ⟨args, rfl, hargs, hlength⟩ := sound_arguments hlast hinner n 0 (by omega) (by omega)
        (Nat.zero_le _) hargs'
      simp only [List.length_append, List.length_cons] at hlen
      obtain ⟨used, rfl, hused⟩ := ih (by omega) hmore
      refine ⟨l :: (args ++ r :: used), by simp, fun before hbefore => ?_⟩
      have hlength : es.length ≤ 255 := by simpa [maxArguments] using hlength
      simpa using hused _ (.callWith hbefore hl hargs hlength hr)

theorem sound_primary : Sound last (n + 1) (.expression .primary) (primary inner) := by
  intro ts e rest hlen h
  rcases (yields_primary hlast).1 h with ⟨t, c, hc, rfl, rfl⟩ | ⟨t, ht, rfl, rfl⟩ |
    ⟨l, us, e, r, hl, rfl, he, hr, rfl⟩
  · exact ⟨[t], rfl, .constant hc⟩
  · exact ⟨[t], rfl, .variable ht⟩
  · rw [List.length_cons] at hlen
    obtain ⟨used, rfl, hused⟩ := hinner (by omega) he
    exact ⟨l :: (used ++ [r]), by simp, .group hl hused hr⟩

theorem sound_call : Sound last (n + 1) (.expression .applied) (call inner n) := by
  intro ts e rest hlen h
  obtain ⟨f, us, hf, hmore⟩ := yields_bind.1 h
  obtain ⟨used, rfl, hused⟩ := sound_primary hlast hinner hlen hf
  rw [List.length_append] at hlen
  obtain ⟨used', rfl, hused'⟩ := sound_calls hlast hinner n (by omega) hmore
  exact ⟨used ++ used', by simp, hused' _ (.tighter hused)⟩

theorem sound_ranked (rank : Rank) : Sound last (n + 1) (.expression rank) (ranked inner n rank) := by
  have hcall := sound_call hlast hinner
  have hunary := sound_unary hlast hcall n
  have hproduct := sound_level hlast .product hunary n
  have hsum := sound_level hlast .sum hproduct n
  have hcomparison := sound_level hlast .comparison hsum n
  have hconjunction := sound_level hlast .conjunction hcomparison n
  cases rank with
  | primary => exact sound_primary hlast hinner
  | applied => exact hcall
  | prefixed => exact hunary
  | product => exact hproduct
  | sum => exact hsum
  | comparison => exact hcomparison
  | conjunction => exact hconjunction
  | disjunction => exact sound_level hlast .disjunction hconjunction n

end

theorem sound_expression (n : Nat) : Sound last n (.expression .disjunction) (expression n) := by
  induction n with
  | zero => exact fun ts _ _ hlen => absurd hlen (Nat.not_lt_zero ts.length)
  | succ n ih => exact sound_ranked hlast ih .disjunction

/-! ### Statements -/

section

variable {inner : Parser Stmt} (hinner : Sound last n .statement inner)
include hinner

omit hlast in
theorem sound_statements (bound : Nat) : Sound last n .statements (statements inner bound) := by
  induction bound with
  | zero =>
    intro ts ss rest _ h
    obtain ⟨rfl, rfl⟩ := yields_pure.1 h
    exact ⟨[], rfl, .noStatements⟩
  | succ bound ih =>
    intro ts ss rest hlen h
    rcases yields_statements.1 h with ⟨-, rfl, rfl⟩ | ⟨-, s, us, ss', hs, hss, rfl⟩
    · exact ⟨[], rfl, .noStatements⟩
    · obtain ⟨used, rfl, hused⟩ := hinner hlen hs
      rw [List.length_append] at hlen
      obtain ⟨used', rfl, hused'⟩ := ih (by omega) hss
      exact ⟨used ++ used', by simp, .moreStatements hused hused'⟩

theorem sound_block (bound : Nat) : Sound last (n + 1) .block (block inner bound) := by
  intro ts ss rest hlen h
  obtain ⟨l, i, us, d, hl, hi, rfl, hss, hne, hd⟩ := (yields_block hlast).1 h
  simp only [List.length_cons] at hlen
  obtain ⟨used, rfl, hused⟩ := sound_statements hinner bound (by omega) hss
  exact ⟨l :: i :: (used ++ [d]), by simp, .block hl hi hused hne hd⟩

theorem sound_alternatives {expression : Parser Expr}
    (hexpression : Sound last (n + 1) (.expression .disjunction) expression) (bound rounds : Nat) :
    Sound last (n + 1) .alternatives (alternatives expression (block inner bound) rounds) := by
  have hblock := sound_block hlast hinner bound
  induction rounds with
  | zero =>
    intro ts r rest _ h
    obtain ⟨rfl, rfl⟩ := yields_pure.1 h
    exact ⟨[], rfl, .nothing⟩
  | succ rounds ih =>
    intro ts r rest hlen h
    rcases (yields_alternatives hlast).1 h with ⟨-, rfl, rfl⟩ | ⟨w, us, hw, rfl, hmore⟩
    · exact ⟨[], rfl, .nothing⟩
    rw [List.length_cons] at hlen
    rcases hmore with ⟨m, vs, e, ws, ss, xs, r', hm, rfl, he, hss, hr, rfl⟩ | ⟨ss, -, hss, rfl⟩
    · rw [List.length_cons] at hlen
      obtain ⟨used, rfl, hused⟩ := hexpression (by omega) he
      rw [List.length_append] at hlen
      obtain ⟨body, rfl, hbody⟩ := hblock (by omega) hss
      rw [List.length_append] at hlen
      obtain ⟨more, rfl, hmore⟩ := ih (by omega) hr
      exact ⟨w :: m :: (used ++ (body ++ more)), by simp, .otherwiseIf hw hm hused hbody hmore⟩
    · obtain ⟨body, rfl, hbody⟩ := hblock (by omega) hss
      exact ⟨w :: body, rfl, .otherwise hw hbody⟩

omit hinner in
theorem sound_parameters (bound count : Nat) {ts rest ps : List Token}
    (hbound : ts.length < bound) (hcount : count ≤ maxArguments)
    (h : (parameters bound count).Yields last ts ps rest) :
    ∃ used, ts = used ++ rest ∧ Derives (.parameters ps) used ∧
      count + ps.length ≤ maxArguments := by
  induction bound generalizing count ts ps with
  | zero => omega
  | succ bound ih =>
    obtain ⟨hne, p, us, hp, rfl, hmore⟩ := (yields_parameters hlast).1 h
    rcases hmore with ⟨rfl, -, rfl⟩ | ⟨c, vs, ps', hc, rfl, rfl, hps⟩
    · exact ⟨[p], rfl, .parameter hp, by simp; omega⟩
    · simp only [List.length_cons] at hbound
      obtain ⟨used, rfl, hused, hlength⟩ := ih (count + 1) (by omega) (by omega) hps
      refine ⟨p :: c :: used, rfl, .moreParameters hp hc hused, ?_⟩
      rw [List.length_cons]
      omega

theorem sound_define {w : Token} {ts rest : List Token} {s : Stmt} (hw : w.kind = .defineWord)
    (hlen : (w :: ts).length < n + 1) (h : (define inner n).Yields last (w :: ts) s rest) :
    ∃ used, w :: ts = used ++ rest ∧ Derives (.statement s) used := by
  obtain ⟨name, l, us, ps, r, vs, ss, hname, hl, rfl, hlist, hr, hss, rfl⟩ :=
    (yields_define hlast).1 h
  have hblock := sound_block hlast hinner n
  simp only [List.length_cons] at hlen
  rcases (yields_parameterList hlast).1 hlist with ⟨a, us, ha, rfl, hps⟩ | ⟨-, rfl, rfl⟩
  · rw [List.length_cons] at hlen
    obtain ⟨used, rfl, hused, hlength⟩ := sound_parameters hlast n 0 (by omega) (Nat.zero_le _) hps
    simp only [List.length_append, List.length_cons] at hlen
    obtain ⟨body, rfl, hbody⟩ := hblock (by omega) hss
    have hlength : ps.length ≤ 255 := by simpa [maxArguments] using hlength
    exact ⟨w :: name :: l :: a :: (used ++ r :: body), by simp,
      .defineWith hw hname hl ha hused hlength hr hbody⟩
  · rw [List.length_cons] at hlen
    obtain ⟨body, rfl, hbody⟩ := hblock (by omega) hss
    exact ⟨w :: name :: l :: r :: body, rfl, .define hw hname hl hr hbody⟩

theorem sound_statementOf {expression : Parser Expr}
    (hexpression : Sound last (n + 1) (.expression .disjunction) expression) :
    Sound last (n + 1) .statement (statementOf expression inner n) := by
  intro ts s rest hlen h
  have hblock := sound_block hlast hinner n
  rw [statementOf, yields_peek_bind] at h
  split at h
  case h_1 hkind =>
    obtain ⟨w, us, hw, rfl⟩ := (headD_kind hlast (by decide)).1 hkind
    obtain ⟨name, q, vs, e, l, hname, hq, he, hl, rfl⟩ := (yields_change hlast).1 h
    rw [List.length_cons] at hlen
    obtain ⟨target, rfl, htarget⟩ := hexpression (by omega) hname
    simp only [List.length_append, List.length_cons] at hlen
    obtain ⟨value, rfl, hvalue⟩ := hexpression (by omega) he
    exact ⟨w :: (target ++ q :: (value ++ [l])), by simp, .change hw htarget hq hvalue hl⟩
  case h_2 hkind =>
    obtain ⟨w, us, hw, rfl⟩ := (headD_kind hlast (by decide)).1 hkind
    obtain ⟨name, q, vs, e, l, hname, hq, rfl, he, hl, rfl⟩ := (yields_create hlast).1 h
    simp only [List.length_cons] at hlen
    obtain ⟨value, rfl, hvalue⟩ := hexpression (by omega) he
    exact ⟨w :: name :: q :: (value ++ [l]), by simp, .create hw hname hq hvalue hl⟩
  case h_3 hkind =>
    obtain ⟨w, us, hw, rfl⟩ := (headD_kind hlast (by decide)).1 hkind
    exact sound_define hlast hinner hw hlen h
  case h_4 hkind =>
    obtain ⟨w, us, hw, rfl⟩ := (headD_kind hlast (by decide)).1 hkind
    obtain ⟨e, vs, ss, ws, r, he, hss, hr, rfl⟩ := yields_conditional.1 h
    rw [List.length_cons] at hlen
    obtain ⟨cond, rfl, hcond⟩ := hexpression (by omega) he
    rw [List.length_append] at hlen
    obtain ⟨body, rfl, hbody⟩ := hblock (by omega) hss
    rw [List.length_append] at hlen
    obtain ⟨more, rfl, hmore⟩ := sound_alternatives hlast hinner hexpression n n (by omega) hr
    exact ⟨w :: (cond ++ (body ++ more)), by simp, .conditional hw hcond hbody hmore⟩
  case h_5 => exact absurd h not_yields_fail
  case h_6 hkind =>
    obtain ⟨w, us, hw, rfl⟩ := (headD_kind hlast (by decide)).1 hkind
    rw [List.length_cons] at hlen
    rcases (yields_repetition hlast).1 h with ⟨m, vs, e, ws, ss, hm, rfl, he, hss, rfl⟩ |
      ⟨e, m, vs, ss, -, he, hm, hss, rfl⟩
    · rw [List.length_cons] at hlen
      obtain ⟨cond, rfl, hcond⟩ := hexpression (by omega) he
      rw [List.length_append] at hlen
      obtain ⟨body, rfl, hbody⟩ := hblock (by omega) hss
      exact ⟨w :: m :: (cond ++ body), by simp, .repeatWhile hw hm hcond hbody⟩
    · obtain ⟨count, rfl, hcount⟩ := hexpression (by omega) he
      simp only [List.length_append, List.length_cons] at hlen
      obtain ⟨body, rfl, hbody⟩ := hblock (by omega) hss
      exact ⟨w :: (count ++ m :: body), by simp, .repeatTimes hw hcount hm hbody⟩
  case h_7 hkind =>
    obtain ⟨w, us, hw, rfl⟩ := (headD_kind hlast (by decide)).1 hkind
    rw [List.length_cons] at hlen
    rcases (yields_giveBack hlast).1 h with ⟨m, vs, e, l, hm, rfl, he, hl, rfl⟩ |
      ⟨l, -, hl, rfl, rfl⟩
    · rw [List.length_cons] at hlen
      obtain ⟨value, rfl, hvalue⟩ := hexpression (by omega) he
      exact ⟨w :: m :: (value ++ [l]), by simp, .returnWith hw hm hvalue hl⟩
    · exact ⟨[w, l], rfl, .returnEmpty hw hl⟩
  case h_8 =>
    obtain ⟨e, l, he, hl, rfl⟩ := (yields_expressionStatement hlast).1 h
    obtain ⟨value, rfl, hvalue⟩ := hexpression hlen he
    exact ⟨value ++ [l], by simp, .expressionStatement hvalue hl⟩

end

theorem sound_statement (n : Nat) : Sound last n .statement (statement n) := by
  induction n with
  | zero => exact fun ts _ _ hlen => absurd hlen (Nat.not_lt_zero ts.length)
  | succ n ih => exact sound_statementOf hlast ih (sound_expression hlast (n + 1))

/-! ### Programs -/

/-- A program takes all tokens, and skips no dedent where every dedent closes an indent. -/
theorem sound_program (bound : Nat) {ts rest : List Token} {ss : List Stmt}
    (hbound : ts.length < bound) (hlen : ts.length < n) (hend : ∀ t ∈ ts, t.kind ≠ .endOfFile)
    (hclosed : ∀ us, us <+: ts → dedents us ≤ indents us)
    (h : (program (statement n) bound).Yields last ts ss rest) : Derives (.statements ss) ts := by
  induction bound generalizing ts ss with
  | zero => omega
  | succ bound ih =>
    rcases yields_program.1 h with ⟨hkind, rfl, rfl⟩ | ⟨hkind, hmore⟩
    · cases rest with
      | nil => exact .noStatements
      | cons t us => exact absurd hkind (hend t List.mem_cons_self)
    · cases ts with
      | nil => exact absurd hlast hkind
      | cons t us =>
        rcases hmore with ⟨hdedent, -⟩ | ⟨-, s, vs, ss', hs, hss, rfl⟩
        · -- a dedent that is skipped would close a level that nothing opened
          have hfirst := hclosed [t] ⟨us, rfl⟩
          have hkind : t.kind = .dedent := hdedent
          simp [indents_cons, dedents_cons, hkind] at hfirst
        · obtain ⟨used, hused, hderives⟩ := sound_statement hlast n hlen hs
          have hne : used ≠ [] := by
            obtain ⟨u, us, rfl, -⟩ := hderives.opens
            exact List.cons_ne_nil _ _
          have hpos := List.length_pos_iff.2 hne
          rw [hused] at hbound hlen hend hclosed ⊢
          rw [List.length_append] at hbound hlen
          refine .moreStatements hderives (ih (by omega) (by omega) ?_ ?_ hss)
          · exact fun t ht => hend t (List.mem_append_right _ ht)
          · intro ws hws
            -- the statement closes every level that it opens
            have hlonger := hclosed (used ++ ws) ((List.prefix_append_right_inj used).2 hws)
            rw [indents_append, dedents_append, hderives.even] at hlonger
            omega

end Offside.Grammar
