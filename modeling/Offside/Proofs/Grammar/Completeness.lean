import Offside.Proofs.Grammar.Soundness

/-!
# What is derived is parsed

Tokens that the grammar derives a tree from are parsed to that tree, without a diagnostic, if what
follows them cannot belong to them. The induction is on the derivation. A derivation nests to the
left where parsing loops, so what is shown of an expression is that parsing it comes down to the rest
of the loop.

* `prolongs`: tokens that go on with an expression;
* `resume`: the rest of the loop of a rank;
* `Phrase.Read`, `Derives.read`: what is derived is read;
* `parse_exact`: parsing accepts exactly what the grammar derives.
-/

namespace Offside.Grammar

open Offside.Parser

variable {last : Token}

/-! ### What follows an expression -/

/-- Whether a token after an expression of a rank would go on with it. -/
def prolongs (rank : Rank) (kind : Kind) : Bool :=
  (rank ≠ .primary && kind = .leftParen) ||
    (tables rank).any fun connective? => (connective? kind).isSome

theorem prolongs_next {rank : Rank} {kind : Kind} (h : prolongs rank kind = false) :
    prolongs rank.next kind = false := by
  cases rank <;> simp_all [prolongs, Rank.next, tables, levels]

theorem table_of_not_prolongs {rank : Rank} {kind : Kind} (h : prolongs rank kind = false) :
    table rank kind = none := by
  cases rank <;> simp_all [prolongs, tables, levels, table]

/-- An operator of a rank does not go on with an operand of it. -/
theorem Operator.not_prolongs {rank : Rank} {kind : Kind} {c : Connective}
    (h : Operator rank kind c) : prolongs rank.next kind = false := by
  cases h <;> rfl

theorem leftParen_of_prolongs {rank : Rank} {kind : Kind} (h : prolongs rank kind = false)
    (hrank : rank ≠ .primary) : kind ≠ .leftParen := by
  rintro rfl
  simp [prolongs, hrank] at h

/-! ### Loops -/

/-- What is left to do for an expression of a rank, once part of it has been read. -/
def resume (inner : Parser Expr) (bound : Nat) (rank : Rank) (rounds : Nat) (e : Expr) :
    Parser Expr :=
  match rank with
  | .primary | .prefixed => pure e
  | .applied => calls inner bound rounds e
  | rank => operands (table rank) (ranked inner bound rank.next) rounds e

/-- The parser of a rank, with a bound of its own for the operators before an operand. -/
def entry (inner : Parser Expr) (bound signs : Nat) : Rank → Parser Expr
  | .prefixed => unary (call inner bound) signs
  | rank => ranked inner bound rank

theorem entry_self (inner : Parser Expr) (bound : Nat) (rank : Rank) :
    entry inner bound bound rank = ranked inner bound rank := by
  cases rank <;> rfl

theorem resume_of_operator {rank : Rank} {kind : Kind} {c : Connective} (h : Operator rank kind c)
    (inner : Parser Expr) (bound rounds : Nat) (e : Expr) :
    resume inner bound rank rounds e =
      operands (table rank) (ranked inner bound rank.next) rounds e := by
  cases h <;> rfl

/-- Nothing is left to do before a token that does not go on with the expression. -/
theorem yields_resume (hlast : last.kind = .endOfFile) {inner : Parser Expr} {bound rounds : Nat}
    {rank : Rank} {e : Expr} {rest : List Token}
    (h : prolongs rank (rest.headD last).kind = false) :
    (resume inner bound rank rounds e).Yields last rest e rest := by
  have hoperands : (operands (table rank) (ranked inner bound rank.next) rounds e).Yields last rest e
      rest := by
    cases rounds with
    | zero => exact yields_pure.2 ⟨rfl, rfl⟩
    | succ rounds => exact yields_operands.2 (.inl ⟨table_of_not_prolongs h, rfl, rfl⟩)
  cases rank with
  | primary | prefixed => exact yields_pure.2 ⟨rfl, rfl⟩
  | applied =>
    cases rounds with
    | zero => exact yields_pure.2 ⟨rfl, rfl⟩
    | succ rounds =>
      exact (yields_calls hlast).2 (.inl ⟨leftParen_of_prolongs h (by decide), rfl, rfl⟩)
  | _ => exact hoperands

/-! ### Readings -/

/-- Tokens are parsed to a phrase, whatever follows them that does not go on with it. -/
def Phrase.Read (last : Token) : Phrase → List Token → Prop
  | .expression rank e, ts => ∀ n signs rest, (ts ++ rest).length ≤ n → (ts ++ rest).length ≤ signs →
    prolongs rank.next (rest.headD last).kind = false →
    ∃ rounds, rest.length ≤ rounds ∧ ∀ a us,
      (resume (Grammar.expression n) n rank rounds e).Yields last rest a us →
      (entry (Grammar.expression n) n signs rank).Yields last (ts ++ rest) a us
  | .arguments es, ts => ∀ n bound count rest, (ts ++ rest).length < n → (ts ++ rest).length < bound →
    count + es.length ≤ maxArguments → (rest.headD last).kind ≠ .comma →
    prolongs .disjunction (rest.headD last).kind = false →
    (Grammar.arguments (Grammar.expression n) bound count).Yields last (ts ++ rest) es rest
  | .parameters ps, ts => ∀ bound count rest, (ts ++ rest).length < bound →
    count + ps.length ≤ maxArguments → (rest.headD last).kind ≠ .comma →
    (Grammar.parameters bound count).Yields last (ts ++ rest) ps rest
  | .statement s, ts => ∀ n rest, (ts ++ rest).length < n →
    (rest.headD last).kind ≠ .otherwiseWord → (Grammar.statement n).Yields last (ts ++ rest) s rest
  | .statements ss, ts => ∀ n bound rest, (ts ++ rest).length < n → (ts ++ rest).length < bound →
    (rest.headD last).kind = .dedent ∨ (rest.headD last).kind = .endOfFile →
    (Grammar.statements (Grammar.statement n) bound).Yields last (ts ++ rest) ss rest
  | .block ss, ts => ∀ n rest, (ts ++ rest).length ≤ n →
    (Grammar.block (Grammar.statement n) n).Yields last (ts ++ rest) ss rest
  | .alternatives r, ts => ∀ n bound rest, (ts ++ rest).length ≤ n → (ts ++ rest).length < bound →
    (rest.headD last).kind ≠ .otherwiseWord →
    (Grammar.alternatives (Grammar.expression (n + 1)) (Grammar.block (Grammar.statement n) n)
      bound).Yields last (ts ++ rest) r rest
  | .program _, _ => True

section

variable (hlast : last.kind = .endOfFile)
include hlast

/-- An expression of a rank before a token that does not go on with it. -/
theorem Phrase.Read.ranked {rank : Rank} {e : Expr} {ts : List Token}
    (h : (Phrase.expression rank e).Read last ts) {n : Nat} {rest : List Token}
    (hlen : (ts ++ rest).length ≤ n) (hrest : prolongs rank (rest.headD last).kind = false) :
    (Grammar.ranked (Grammar.expression n) n rank).Yields last (ts ++ rest) e rest := by
  obtain ⟨rounds, -, hread⟩ := h n n rest hlen hlen (prolongs_next hrest)
  rw [entry_self] at hread
  exact hread e rest (yields_resume hlast hrest)

theorem Phrase.Read.expression {e : Expr} {ts : List Token}
    (h : (Phrase.expression .disjunction e).Read last ts) {n : Nat} {rest : List Token}
    (hlen : (ts ++ rest).length < n)
    (hrest : prolongs .disjunction (rest.headD last).kind = false) :
    (Grammar.expression n).Yields last (ts ++ rest) e rest := by
  cases n with
  | zero => exact absurd hlen (Nat.not_lt_zero _)
  | succ n => exact h.ranked hlast (Nat.le_of_lt_succ hlen) hrest

/-- An expression before a token of a kind that ends it. -/
theorem Phrase.Read.before {e : Expr} {ts : List Token}
    (h : (Phrase.expression .disjunction e).Read last ts) {t : Token} {kind : Kind}
    (ht : t.kind = kind) (hkind : prolongs .disjunction kind = false) (n : Nat) (rest : List Token)
    (hlen : (ts ++ t :: rest).length < n) :
    (Grammar.expression n).Yields last (ts ++ t :: rest) e (t :: rest) := by
  refine h.expression hlast hlen ?_
  rw [List.headD_cons, ht, hkind]

/-! ### Expressions -/

omit hlast in
/-- A call or a primary expression starts with no operator. -/
theorem Derives.not_sign {rank : Rank} {e : Expr} {ts : List Token}
    (h : Derives (.expression rank e) ts) (hrank : rank = .applied ∨ rank = .primary) :
    ∃ t us, ts = t :: us ∧ unary? t.kind = none := by
  generalize hph : Phrase.expression rank e = ph at h
  induction h generalizing rank e with
  | constant hc =>
    refine ⟨_, _, rfl, ?_⟩
    cases hc with
    | true hk | false hk | empty hk => rw [hk]; rfl
    | number hk _ | text hk _ => rcases hk with hk | hk <;> rw [hk] <;> rfl
  | «variable» hk => exact ⟨_, _, rfl, by rw [hk]; rfl⟩
  | group hl _ _ _ => exact ⟨_, _, rfl, by rw [hl]; rfl⟩
  | tighter _ ih =>
    cases hph
    refine ih (.inr ?_) rfl
    rcases hrank with rfl | rfl <;> rfl
  | call _ _ _ ih | callWith _ _ _ _ _ ih _ =>
    obtain ⟨t, us, rfl, ht⟩ := ih (.inl rfl) rfl
    exact ⟨t, _, rfl, ht⟩
  | unary _ _ _ =>
    cases hph
    rcases hrank with hrank | hrank <;> cases hrank
  | binary _ hop _ _ _ =>
    cases hph
    rcases hrank with rfl | rfl <;> cases hop
  | _ => cases hph

theorem read_constant {t : Token} {c : Constant} (h : Denotes t c) :
    (Phrase.expression .primary (.constant c)).Read last [t] := by
  intro n signs rest _ _ _
  refine ⟨rest.length, Nat.le_refl _, fun a us h' => ?_⟩
  obtain ⟨rfl, rfl⟩ := yields_pure.1 h'
  exact (yields_primary hlast).2 (.inl ⟨t, c, h, rfl, rfl⟩)

theorem read_variable {t : Token} (h : t.kind = .identifier) :
    (Phrase.expression .primary (.variable t)).Read last [t] := by
  intro n signs rest _ _ _
  refine ⟨rest.length, Nat.le_refl _, fun a us h' => ?_⟩
  obtain ⟨rfl, rfl⟩ := yields_pure.1 h'
  exact (yields_primary hlast).2 (.inr (.inl ⟨t, h, rfl, rfl⟩))

theorem read_group {l r : Token} {e : Expr} {ts : List Token} (hl : l.kind = .leftParen)
    (he : (Phrase.expression .disjunction e).Read last ts) (hr : r.kind = .rightParen) :
    (Phrase.expression .primary (.group e)).Read last (l :: (ts ++ [r])) := by
  intro n signs rest hlen _ _
  refine ⟨rest.length, Nat.le_refl _, fun a us h' => ?_⟩
  obtain ⟨rfl, rfl⟩ := yields_pure.1 h'
  refine (yields_primary hlast).2 (.inr (.inr ⟨l, ts ++ r :: us, e, r, hl, by simp, ?_, hr, rfl⟩))
  simp only [List.cons_append, List.append_assoc, List.nil_append, List.length_cons,
    List.length_append] at hlen
  exact he.before hlast hr rfl n us (by simp; omega)

/-- An operand of the next rank comes first, and the loop of the rank follows. -/
theorem read_tighter {rank : Rank} {e : Expr} {ts : List Token}
    (hderives : Derives (.expression rank.next e) ts)
    (h : (Phrase.expression rank.next e).Read last ts) :
    (Phrase.expression rank e).Read last ts := by
  intro n signs rest hlen hsigns hrest
  have hfirst := h.ranked hlast hlen hrest
  have hrest' : rest.length ≤ n := by
    rw [List.length_append] at hlen
    omega
  cases rank with
  | primary =>
    refine ⟨n, hrest', fun a us h' => ?_⟩
    obtain ⟨rfl, rfl⟩ := yields_pure.1 h'
    exact hfirst
  | prefixed =>
    refine ⟨n, hrest', fun a us h' => ?_⟩
    obtain ⟨rfl, rfl⟩ := yields_pure.1 h'
    -- an operator here would be taken from the operand
    obtain ⟨t, vs, rfl, ht⟩ := hderives.not_sign (.inl rfl)
    cases signs with
    | zero => simp at hsigns
    | succ signs => exact yields_unary.2 (.inl ⟨ht, hfirst⟩)
  | _ => exact ⟨n, hrest', fun a us h' => yields_bind.2 ⟨e, rest, hfirst, h'⟩⟩

/-- One more round of the loop of calls. -/
theorem read_call {f : Expr} {es : List Expr} {l r : Token} {ts : List Token} (us : List Token)
    (hf : (Phrase.expression .applied f).Read last ts) (hl : l.kind = .leftParen)
    (hes : ∀ n rest, (us ++ r :: rest).length < n →
      (argumentList (expression n) n).Yields last (us ++ r :: rest) es (r :: rest))
    (hr : r.kind = .rightParen) :
    (Phrase.expression .applied (.call f es r)).Read last (ts ++ l :: (us ++ [r])) := by
  intro n signs rest hlen hsigns _
  have hassoc : ts ++ l :: (us ++ [r]) ++ rest = ts ++ l :: (us ++ r :: rest) := by simp
  rw [hassoc] at hlen hsigns ⊢
  obtain ⟨rounds, hrounds, hread⟩ := hf n signs _ hlen hsigns rfl
  simp only [List.length_append, List.length_cons] at hlen hrounds
  -- the loop has a round left for every token ahead, and so has one for this call
  cases rounds with
  | zero => omega
  | succ rounds =>
    refine ⟨rounds, by omega, fun a vs h => hread a vs ?_⟩
    have hargs := hes n rest (by simp; omega)
    exact (yields_calls hlast).2 (.inr ⟨l, _, es, r, rest, hl, rfl, hargs, hr, h⟩)

omit hlast in
theorem read_unary {t : Token} {op : UnaryOp} {e : Expr} {ts : List Token} (hop : Sign t.kind op)
    (he : (Phrase.expression .prefixed e).Read last ts) :
    (Phrase.expression .prefixed (.unary op t e)).Read last (t :: ts) := by
  intro n signs rest hlen hsigns hrest
  rw [List.cons_append, List.length_cons] at hlen hsigns
  cases signs with
  | zero => omega
  | succ signs =>
    obtain ⟨rounds, hrounds, hread⟩ := he n signs rest (by omega) (by omega) hrest
    refine ⟨rounds, hrounds, fun a us h => ?_⟩
    obtain ⟨rfl, rfl⟩ := yields_pure.1 h
    have hinner := hread e us (yields_pure.2 ⟨rfl, rfl⟩)
    exact yields_unary.2 (.inr ⟨op, e, unary?_eq_some.2 hop, hinner, rfl⟩)

/-- One more round of the loop of a rank. -/
theorem read_binary {rank : Rank} {t : Token} {c : Connective} {l r : Expr} {ts us : List Token}
    (hl : (Phrase.expression rank l).Read last ts) (hop : Operator rank t.kind c)
    (hr : (Phrase.expression rank.next r).Read last us) :
    (Phrase.expression rank (c.apply t l r)).Read last (ts ++ t :: us) := by
  intro n signs rest hlen hsigns hrest
  have hassoc : ts ++ t :: us ++ rest = ts ++ t :: (us ++ rest) := by simp
  rw [hassoc] at hlen hsigns ⊢
  obtain ⟨rounds, hrounds, hread⟩ := hl n signs _ hlen hsigns hop.not_prolongs
  simp only [List.length_append, List.length_cons] at hlen hrounds
  have hright := hr.ranked hlast (n := n) (by simp; omega) hrest
  cases rounds with
  | zero => omega
  | succ rounds =>
    refine ⟨rounds, by omega, fun a vs h => hread a vs ?_⟩
    rw [resume_of_operator hop] at h ⊢
    exact yields_operands.2 (.inr ⟨c, r, rest, table_eq_some.2 hop, hright, h⟩)

/-! ### Arguments and parameters -/

theorem read_argument {e : Expr} {ts : List Token}
    (h : (Phrase.expression .disjunction e).Read last ts) :
    (Phrase.arguments [e]).Read last ts := by
  intro n bound count rest hlen hbound hcount hcomma hrest
  cases bound with
  | zero => omega
  | succ bound =>
    have hne : count ≠ maxArguments := by
      rw [List.length_singleton] at hcount
      omega
    have hfirst := h.expression hlast hlen hrest
    exact (yields_arguments hlast).2 ⟨hne, e, rest, hfirst, .inl ⟨rfl, hcomma, rfl⟩⟩

theorem read_moreArguments {e : Expr} {es : List Expr} {c : Token} {ts us : List Token}
    (he : (Phrase.expression .disjunction e).Read last ts) (hc : c.kind = .comma)
    (hes : (Phrase.arguments es).Read last us) :
    (Phrase.arguments (e :: es)).Read last (ts ++ c :: us) := by
  intro n bound count rest hlen hbound hcount hcomma hrest
  have hassoc : ts ++ c :: us ++ rest = ts ++ c :: (us ++ rest) := by simp
  rw [hassoc] at hlen hbound ⊢
  rw [List.length_cons] at hcount
  cases bound with
  | zero => omega
  | succ bound =>
    have hne : count ≠ maxArguments := by omega
    have hfirst := he.before hlast hc rfl n _ hlen
    simp only [List.length_append, List.length_cons] at hlen hbound
    have hmore := hes n bound (count + 1) rest (by simp; omega) (by simp; omega) (by omega) hcomma
      hrest
    exact (yields_arguments hlast).2
      ⟨hne, e, _, hfirst, .inr ⟨c, _, es, hc, rfl, rfl, hmore⟩⟩

theorem read_parameter {p : Token} (hp : p.kind = .identifier) :
    (Phrase.parameters [p]).Read last [p] := by
  intro bound count rest hbound hcount hcomma
  cases bound with
  | zero => omega
  | succ bound =>
    have hne : count ≠ maxArguments := by
      rw [List.length_singleton] at hcount
      omega
    exact (yields_parameters hlast).2 ⟨hne, p, rest, hp, rfl, .inl ⟨rfl, hcomma, rfl⟩⟩

theorem read_moreParameters {p c : Token} {ps ts : List Token} (hp : p.kind = .identifier)
    (hc : c.kind = .comma) (hps : (Phrase.parameters ps).Read last ts) :
    (Phrase.parameters (p :: ps)).Read last (p :: c :: ts) := by
  intro bound count rest hbound hcount hcomma
  simp only [List.cons_append, List.length_cons] at hbound hcount
  cases bound with
  | zero => omega
  | succ bound =>
    have hne : count ≠ maxArguments := by omega
    have hmore := hps bound (count + 1) rest (by omega) (by omega) hcomma
    exact (yields_parameters hlast).2
      ⟨hne, p, _, hp, rfl, .inr ⟨c, _, ps, hc, rfl, rfl, hmore⟩⟩

omit hlast in
/-- The arguments of a call, up to the closing parenthesis. -/
theorem read_argumentList {es : List Expr} {us : List Token} {r : Token}
    (hderives : Derives (.arguments es) us) (hes : (Phrase.arguments es).Read last us)
    (hlength : es.length ≤ 255) (hr : r.kind = .rightParen) (n : Nat) (rest : List Token)
    (hlen : (us ++ r :: rest).length < n) :
    (argumentList (expression n) n).Yields last (us ++ r :: rest) es (r :: rest) := by
  have hmany := hes n n 0 (r :: rest) hlen hlen (by rw [Nat.zero_add]; exact hlength)
    (by simp [hr]) (by rw [List.headD_cons, hr]; rfl)
  -- a closing parenthesis would end the list before it began
  obtain ⟨t, vs, rfl, ht⟩ := hderives.opens
  have hne : t.kind ≠ .rightParen := by
    intro hk
    rw [hk] at ht
    cases ht
  exact yields_argumentList.2 (.inr ⟨hne, hmany⟩)

/-! ### Blocks -/

omit hlast in
theorem read_noStatements : (Phrase.statements []).Read last [] := by
  intro n bound rest _ hbound hrest
  cases bound with
  | zero => omega
  | succ bound => exact yields_statements.2 (.inl ⟨hrest, rfl, rfl⟩)

omit hlast in
theorem opensStatement_ne {kind : Kind} (h : opensStatement kind) :
    kind ≠ .dedent ∧ kind ≠ .endOfFile ∧ kind ≠ .otherwiseWord := by
  refine ⟨?_, ?_, ?_⟩ <;> rintro rfl <;> cases h

omit hlast in
/-- What ends a block neither goes on with a conditional nor opens a region. -/
theorem ne_of_endsBlock {kind : Kind} (h : kind = .dedent ∨ kind = .endOfFile) :
    kind ≠ .otherwiseWord ∧ kind ≠ .indent := by
  rcases h with rfl | rfl <;> exact ⟨nofun, nofun⟩

omit hlast in
/-- What comes after a statement of a block is another statement, or what follows the block. -/
theorem Derives.after_statement {ss : List Stmt} {ts : List Token} {kind : Kind}
    (h : Derives (.statements ss) ts) (hkind : opensStatement kind = false) (rest : List Token)
    (hrest : (rest.headD last).kind ≠ kind) : ((ts ++ rest).headD last).kind ≠ kind := by
  cases h with
  | noStatements => exact hrest
  | moreStatements hs _ =>
    obtain ⟨t, us, rfl, ht⟩ := hs.opens
    rintro rfl
    exact absurd ht (by simpa using hkind)

omit hlast in
theorem read_moreStatements {s : Stmt} {ss : List Stmt} {ts us : List Token}
    (hs : Derives (.statement s) ts) (hss : Derives (.statements ss) us)
    (hfirst : (Phrase.statement s).Read last ts) (hmore : (Phrase.statements ss).Read last us) :
    (Phrase.statements (s :: ss)).Read last (ts ++ us) := by
  intro n bound rest hlen hbound hrest
  rw [List.append_assoc] at hlen hbound ⊢
  have hnext := hss.after_statement rfl rest (ne_of_endsBlock hrest).1
  have hstatement := hfirst n (us ++ rest) hlen hnext
  obtain ⟨t, vs, rfl, ht⟩ := hs.opens
  obtain ⟨hdedent, hend, -⟩ := opensStatement_ne ht
  cases bound with
  | zero => omega
  | succ bound =>
    simp only [List.cons_append, List.length_cons, List.length_append] at hlen hbound
    have hstatements := hmore n bound rest (by simp; omega) (by simp; omega) hrest
    exact yields_statements.2
      (.inr ⟨not_or.2 ⟨hdedent, hend⟩, s, _, ss, hstatement, hstatements, rfl⟩)

theorem read_block {l i d : Token} {ss : List Stmt} {ts : List Token} (hl : l.kind = .newline)
    (hi : i.kind = .indent) (h : (Phrase.statements ss).Read last ts) (hne : ss ≠ [])
    (hd : d.kind = .dedent) : (Phrase.block ss).Read last (l :: i :: (ts ++ [d])) := by
  intro n rest hlen
  simp only [List.cons_append, List.append_assoc, List.nil_append, List.length_cons,
    List.length_append] at hlen
  have hstatements := h n n (d :: rest) (by simp; omega) (by simp; omega) (.inl hd)
  exact (yields_block hlast).2 ⟨l, i, ts ++ d :: rest, d, hl, hi, by simp, hstatements, hne, hd⟩

/-! ### Statements -/

omit hlast in
/-- A statement is read if it is read with any bound that leaves room for one more token. -/
theorem read_statement {s : Stmt} {ts : List Token}
    (h : ∀ n rest, (ts ++ rest).length ≤ n → (rest.headD last).kind ≠ .otherwiseWord →
      (statementOf (expression (n + 1)) (statement n) n).Yields last (ts ++ rest) s rest) :
    (Phrase.statement s).Read last ts := by
  intro n rest hlen hrest
  cases n with
  | zero => omega
  | succ n => exact h n rest (Nat.le_of_lt_succ hlen) hrest

theorem read_change {w name q l : Token} {e : Expr} {ts us : List Token} (hw : w.kind = .changeWord)
    (htarget : (Phrase.expression .disjunction (.variable name)).Read last ts)
    (hq : q.kind = .equal) (he : (Phrase.expression .disjunction e).Read last us)
    (hl : l.kind = .newline) :
    (Phrase.statement (.change name e)).Read last (w :: (ts ++ q :: (us ++ [l]))) := by
  refine read_statement fun n rest hlen _ => ?_
  have hassoc : w :: (ts ++ q :: (us ++ [l])) ++ rest = w :: (ts ++ q :: (us ++ l :: rest)) := by simp
  rw [hassoc] at hlen ⊢
  simp only [List.length_append, List.length_cons] at hlen
  have hfirst := htarget.before hlast hq rfl (n + 1) (us ++ l :: rest) (by simp; omega)
  have hsecond := he.before hlast hl rfl (n + 1) rest (by simp; omega)
  rw [statementOf, yields_peek_bind, List.headD_cons, hw]
  exact (yields_change hlast).2 ⟨name, q, _, e, l, hfirst, hq, hsecond, hl, rfl⟩

theorem read_create {w name q l : Token} {e : Expr} {ts : List Token} (hw : w.kind = .createWord)
    (hname : name.kind = .identifier) (hq : q.kind = .equal)
    (he : (Phrase.expression .disjunction e).Read last ts) (hl : l.kind = .newline) :
    (Phrase.statement (.create name e)).Read last (w :: name :: q :: (ts ++ [l])) := by
  refine read_statement fun n rest hlen _ => ?_
  have hassoc : w :: name :: q :: (ts ++ [l]) ++ rest = w :: name :: q :: (ts ++ l :: rest) := by simp
  rw [hassoc] at hlen ⊢
  simp only [List.length_append, List.length_cons] at hlen
  have hvalue := he.before hlast hl rfl (n + 1) rest (by simp; omega)
  rw [statementOf, yields_peek_bind, List.headD_cons, hw]
  exact (yields_create hlast).2 ⟨name, q, _, e, l, hname, hq, rfl, hvalue, hl, rfl⟩

/-- A function, with or without parameters. -/
theorem read_define {w name l r : Token} {ps ts : List Token} {ss : List Stmt} (us : List Token)
    (hw : w.kind = .defineWord) (hname : name.kind = .identifier) (hl : l.kind = .leftParen)
    (hps : ∀ n rest, (us ++ r :: rest).length < n →
      (parameterList n).Yields last (us ++ r :: rest) ps (r :: rest))
    (hr : r.kind = .rightParen) (hss : (Phrase.block ss).Read last ts) :
    (Phrase.statement (.define name ps ss)).Read last (w :: name :: l :: (us ++ r :: ts)) := by
  refine read_statement fun n rest hlen _ => ?_
  have hassoc : w :: name :: l :: (us ++ r :: ts) ++ rest =
      w :: name :: l :: (us ++ r :: (ts ++ rest)) := by simp
  rw [hassoc] at hlen ⊢
  simp only [List.length_append, List.length_cons] at hlen
  have hparams := hps n (ts ++ rest) (by simp; omega)
  have hbody := hss n rest (by simp; omega)
  rw [statementOf, yields_peek_bind, List.headD_cons, hw]
  exact (yields_define hlast).2 ⟨name, l, _, ps, r, _, ss, hname, hl, rfl, hparams, hr, hbody, rfl⟩

theorem read_noParameters {r : Token} (hr : r.kind = .rightParen) (n : Nat) (rest : List Token) :
    (parameterList n).Yields last (r :: rest) [] (r :: rest) :=
  (yields_parameterList hlast).2 (.inr ⟨by simp [hr], rfl, rfl⟩)

theorem read_parameterList {a r : Token} {ps us : List Token} (ha : a.kind = .acceptWord)
    (hps : (Phrase.parameters ps).Read last us) (hlength : ps.length ≤ 255)
    (hr : r.kind = .rightParen) (n : Nat) (rest : List Token)
    (hlen : (a :: us ++ r :: rest).length < n) :
    (parameterList n).Yields last (a :: us ++ r :: rest) ps (r :: rest) := by
  rw [List.cons_append, List.length_cons] at hlen
  have hmany := hps n 0 (r :: rest) (by omega) (by rw [Nat.zero_add]; exact hlength) (by simp [hr])
  exact (yields_parameterList hlast).2 (.inl ⟨a, _, ha, rfl, hmany⟩)

theorem read_expressionStatement {e : Expr} {l : Token} {ts : List Token}
    (hderives : Derives (.expression .disjunction e) ts)
    (he : (Phrase.expression .disjunction e).Read last ts) (hl : l.kind = .newline) :
    (Phrase.statement (.expression e)).Read last (ts ++ [l]) := by
  refine read_statement fun n rest hlen _ => ?_
  have hassoc : ts ++ [l] ++ rest = ts ++ l :: rest := by simp
  rw [hassoc] at hlen ⊢
  have hvalue := he.before hlast hl rfl (n + 1) rest (by omega)
  obtain ⟨t, us, rfl, ht⟩ := hderives.opens
  have hstatement := (yields_expressionStatement hlast).2 ⟨e, l, hvalue, hl, rfl⟩
  rw [statementOf, yields_peek_bind, List.cons_append, List.headD_cons]
  -- No word that a statement starts with starts an expression.
  split
  case h_8 => exact hstatement
  all_goals
    rename_i hk
    rw [hk] at ht
    cases ht

/-- An expression before a block. -/
theorem Phrase.Read.beforeBlock {e : Expr} {ss : List Stmt} {ts us : List Token}
    (he : (Phrase.expression .disjunction e).Read last ts) (hss : Derives (.block ss) us) (n : Nat)
    (rest : List Token) (hlen : (ts ++ (us ++ rest)).length < n) :
    (Grammar.expression n).Yields last (ts ++ (us ++ rest)) e (us ++ rest) := by
  obtain ⟨t, vs, rfl, ht⟩ := hss.opens
  exact he.before hlast ht rfl n (vs ++ rest) hlen

theorem read_conditional {w : Token} {e : Expr} {ss : List Stmt} {r : Else} {ts us vs : List Token}
    (hw : w.kind = .ifWord) (he : (Phrase.expression .disjunction e).Read last ts)
    (hderives : Derives (.block ss) us) (hss : (Phrase.block ss).Read last us)
    (hr : (Phrase.alternatives r).Read last vs) :
    (Phrase.statement (.branch w e ss r)).Read last (w :: (ts ++ (us ++ vs))) := by
  refine read_statement fun n rest hlen hrest => ?_
  have hassoc : w :: (ts ++ (us ++ vs)) ++ rest = w :: (ts ++ (us ++ (vs ++ rest))) := by simp
  rw [hassoc] at hlen ⊢
  simp only [List.length_append, List.length_cons] at hlen
  have hcond := he.beforeBlock hlast hderives (n + 1) (vs ++ rest) (by simp; omega)
  have hbody := hss n (vs ++ rest) (by simp; omega)
  have hmore := hr n n rest (by simp; omega) (by simp; omega) hrest
  rw [statementOf, yields_peek_bind, List.headD_cons, hw]
  exact yields_conditional.2 ⟨e, _, ss, _, r, hcond, hbody, hmore, rfl⟩

theorem read_repeatTimes {w m : Token} {e : Expr} {ss : List Stmt} {ts us : List Token}
    (hw : w.kind = .repeatWord) (hderives : Derives (.expression .disjunction e) ts)
    (he : (Phrase.expression .disjunction e).Read last ts) (hm : m.kind = .timesWord)
    (hss : (Phrase.block ss).Read last us) :
    (Phrase.statement (.repeatTimes w e ss)).Read last (w :: (ts ++ m :: us)) := by
  refine read_statement fun n rest hlen _ => ?_
  have hassoc : w :: (ts ++ m :: us) ++ rest = w :: (ts ++ m :: (us ++ rest)) := by simp
  rw [hassoc] at hlen ⊢
  simp only [List.length_append, List.length_cons] at hlen
  have hcount := he.before hlast hm rfl (n + 1) (us ++ rest) (by simp; omega)
  have hbody := hss n rest (by simp; omega)
  -- the word that makes it the other kind of loop starts no expression
  have hne : ((ts ++ m :: (us ++ rest)).headD last).kind ≠ .whileWord := by
    obtain ⟨t, vs, rfl, ht⟩ := hderives.opens
    intro hk
    rw [List.cons_append, List.headD_cons] at hk
    rw [hk] at ht
    cases ht
  rw [statementOf, yields_peek_bind, List.headD_cons, hw]
  exact (yields_repetition hlast).2 (.inr ⟨e, m, _, ss, hne, hcount, hm, hbody, rfl⟩)

theorem read_repeatWhile {w m : Token} {e : Expr} {ss : List Stmt} {ts us : List Token}
    (hw : w.kind = .repeatWord) (hm : m.kind = .whileWord)
    (he : (Phrase.expression .disjunction e).Read last ts) (hderives : Derives (.block ss) us)
    (hss : (Phrase.block ss).Read last us) :
    (Phrase.statement (.repeatWhile w e ss)).Read last (w :: m :: (ts ++ us)) := by
  refine read_statement fun n rest hlen _ => ?_
  have hassoc : w :: m :: (ts ++ us) ++ rest = w :: m :: (ts ++ (us ++ rest)) := by simp
  rw [hassoc] at hlen ⊢
  simp only [List.length_append, List.length_cons] at hlen
  have hcond := he.beforeBlock hlast hderives (n + 1) rest (by simp; omega)
  have hbody := hss n rest (by simp; omega)
  rw [statementOf, yields_peek_bind, List.headD_cons, hw]
  exact (yields_repetition hlast).2 (.inl ⟨m, _, e, _, ss, hm, rfl, hcond, hbody, rfl⟩)

theorem read_returnEmpty {w l : Token} (hw : w.kind = .returnWord) (hl : l.kind = .newline) :
    (Phrase.statement (.returnEmpty w)).Read last [w, l] := by
  refine read_statement fun n rest _ _ => ?_
  rw [statementOf, yields_peek_bind, List.cons_append, List.headD_cons, hw]
  exact (yields_giveBack hlast).2 (.inr ⟨l, by simp [hl], hl, rfl, rfl⟩)

theorem read_returnWith {w m l : Token} {e : Expr} {ts : List Token} (hw : w.kind = .returnWord)
    (hm : m.kind = .withWord) (he : (Phrase.expression .disjunction e).Read last ts)
    (hl : l.kind = .newline) :
    (Phrase.statement (.returnWith w e)).Read last (w :: m :: (ts ++ [l])) := by
  refine read_statement fun n rest hlen _ => ?_
  have hassoc : w :: m :: (ts ++ [l]) ++ rest = w :: m :: (ts ++ l :: rest) := by simp
  rw [hassoc] at hlen ⊢
  simp only [List.length_append, List.length_cons] at hlen
  have hvalue := he.before hlast hl rfl (n + 1) rest (by simp; omega)
  rw [statementOf, yields_peek_bind, List.headD_cons, hw]
  exact (yields_giveBack hlast).2 (.inl ⟨m, _, e, l, hm, rfl, hvalue, hl, rfl⟩)

/-! ### Further branches -/

theorem read_nothing : (Phrase.alternatives .nothing).Read last [] := by
  intro n bound rest _ hbound hrest
  cases bound with
  | zero => omega
  | succ bound => exact (yields_alternatives hlast).2 (.inl ⟨hrest, rfl, rfl⟩)

theorem read_otherwise {w : Token} {ss : List Stmt} {ts : List Token} (hw : w.kind = .otherwiseWord)
    (hderives : Derives (.block ss) ts) (hss : (Phrase.block ss).Read last ts) :
    (Phrase.alternatives (.block ss)).Read last (w :: ts) := by
  intro n bound rest hlen hbound _
  rw [List.cons_append, List.length_cons] at hlen
  have hbody := hss n rest (by omega)
  -- a block starts with the end of a line, so no further condition follows
  obtain ⟨t, us, rfl, ht⟩ := hderives.opens
  cases bound with
  | zero => omega
  | succ bound =>
    exact (yields_alternatives hlast).2
      (.inr ⟨w, _, hw, rfl, .inr ⟨ss, by simp [ht], hbody, rfl⟩⟩)

theorem read_otherwiseIf {w m : Token} {e : Expr} {ss : List Stmt} {r : Else}
    {ts us vs : List Token} (hw : w.kind = .otherwiseWord) (hm : m.kind = .ifWord)
    (he : (Phrase.expression .disjunction e).Read last ts) (hderives : Derives (.block ss) us)
    (hss : (Phrase.block ss).Read last us) (hr : (Phrase.alternatives r).Read last vs) :
    (Phrase.alternatives (.branch m e ss r)).Read last (w :: m :: (ts ++ (us ++ vs))) := by
  intro n bound rest hlen hbound hrest
  have hassoc : w :: m :: (ts ++ (us ++ vs)) ++ rest = w :: m :: (ts ++ (us ++ (vs ++ rest))) := by
    simp
  rw [hassoc] at hlen hbound ⊢
  simp only [List.length_append, List.length_cons] at hlen hbound
  cases bound with
  | zero => omega
  | succ bound =>
    have hcond := he.beforeBlock hlast hderives (n + 1) (vs ++ rest) (by simp; omega)
    have hbody := hss n (vs ++ rest) (by simp; omega)
    have hmore := hr n bound rest (by simp; omega) (by simp; omega) hrest
    exact (yields_alternatives hlast).2
      (.inr ⟨w, _, hw, rfl, .inl ⟨m, _, e, _, ss, _, r, hm, rfl, hcond, hbody, hmore, rfl⟩⟩)

/-! ### Everything -/

/-- What is derived is read. -/
theorem Derives.read {ph : Phrase} {ts : List Token} (h : Derives ph ts) : ph.Read last ts := by
  induction h with
  | constant hc => exact read_constant hlast hc
  | «variable» hk => exact read_variable hlast hk
  | group hl _ hr ih => exact read_group hlast hl ih hr
  | tighter h ih => exact read_tighter hlast h ih
  | call _ hl hr ih =>
    exact read_call hlast [] ih hl (fun n rest _ => yields_argumentList.2 (.inl ⟨hr, rfl, rfl⟩)) hr
  | callWith _ hl hes hlength hr ih ih' =>
    exact read_call hlast _ ih hl (read_argumentList hes ih' hlength hr) hr
  | unary hop _ ih => exact read_unary hop ih
  | binary _ hop _ ih ih' => exact read_binary hlast ih hop ih'
  | argument _ ih => exact read_argument hlast ih
  | moreArguments _ hc _ ih ih' => exact read_moreArguments hlast ih hc ih'
  | parameter hp => exact read_parameter hlast hp
  | moreParameters hp hc _ ih => exact read_moreParameters hlast hp hc ih
  | change hw _ hq _ hl ih ih' => exact read_change hlast hw ih hq ih' hl
  | create hw hname hq _ hl ih => exact read_create hlast hw hname hq ih hl
  | define hw hname hl hr _ ih =>
    exact read_define hlast [] hw hname hl (fun n rest _ => read_noParameters hlast hr n rest) hr ih
  | defineWith hw hname hl ha _ hlength hr _ ih ih' =>
    exact read_define hlast _ hw hname hl (read_parameterList hlast ha ih hlength hr) hr ih'
  | expressionStatement h hl ih => exact read_expressionStatement hlast h ih hl
  | conditional hw _ h _ ih ih' ih'' => exact read_conditional hlast hw ih h ih' ih''
  | repeatTimes hw h hm _ ih ih' => exact read_repeatTimes hlast hw h ih hm ih'
  | repeatWhile hw hm _ h ih ih' => exact read_repeatWhile hlast hw hm ih h ih'
  | returnEmpty hw hl => exact read_returnEmpty hlast hw hl
  | returnWith hw hm _ hl ih => exact read_returnWith hlast hw hm ih hl
  | noStatements => exact read_noStatements
  | moreStatements hs hss ih ih' => exact read_moreStatements hs hss ih ih'
  | block hl hi _ hne hd ih => exact read_block hlast hl hi ih hne hd
  | nothing => exact read_nothing hlast
  | otherwise hw h ih => exact read_otherwise hlast hw h ih
  | otherwiseIf hw hm _ h _ ih ih' ih'' => exact read_otherwiseIf hlast hw hm ih h ih' ih''
  | program _ _ _ => trivial

/-! ### Programs -/

/-- A program is parsed up to the end of the text. -/
theorem yields_program_of_derives {ss : List Stmt} {ts : List Token}
    (h : Derives (.statements ss) ts) (n bound : Nat) (hlen : ts.length < n)
    (hbound : ts.length < bound) : (program (statement n) bound).Yields last ts ss [] := by
  induction ss generalizing ts bound with
  | nil =>
    cases h
    cases bound with
    | zero => omega
    | succ bound => exact yields_program.2 (.inl ⟨hlast, rfl, rfl⟩)
  | cons s ss ih =>
    obtain ⟨ts, us, rfl, hs, hss⟩ : ∃ vs us, ts = vs ++ us ∧ Derives (.statement s) vs ∧
        Derives (.statements ss) us := by
      cases h with
      | moreStatements hs hss => exact ⟨_, _, rfl, hs, hss⟩
    have hnext : (us.headD last).kind ≠ .otherwiseWord := by
      have hafter : ((us ++ []).headD last).kind ≠ .otherwiseWord :=
        hss.after_statement rfl [] (by simp [hlast])
      rwa [List.append_nil] at hafter
    have hfirst := hs.read hlast n us hlen hnext
    -- a dedent would be skipped here, but no statement starts with one
    obtain ⟨t, vs, rfl, ht⟩ := hs.opens
    obtain ⟨hdedent, hend, -⟩ := opensStatement_ne ht
    simp only [List.cons_append, List.length_cons, List.length_append] at hlen hbound
    cases bound with
    | zero => omega
    | succ bound =>
      have hmore := ih hss bound (by omega) (by omega)
      exact yields_program.2 (.inr ⟨hend, .inr ⟨hdedent, s, us, ss, hfirst, hmore, rfl⟩⟩)

end

/-- Parsing records nothing exactly if the parser of programs answers without a diagnostic. -/
theorem errors_parse_eq_nil {tokens : List Token} {ss : List Stmt} :
    (parse tokens).errors = [] ∧ (parse tokens).stmts = ss ↔
      ∃ rest, (program (statement ((ahead tokens).length + 1)) ((ahead tokens).length + 1)).Yields
        (endToken tokens) (ahead tokens) ss rest := by
  unfold parse Yields
  dsimp only
  generalize program _ _ (endToken tokens) (ahead tokens) = reply
  obtain ⟨outcome, notes, rest⟩ := reply
  cases outcome with
  | ok stmts =>
    constructor
    · rintro ⟨hnotes, hstmts⟩
      exact ⟨rest, by rw [← hstmts, ← hnotes]⟩
    · rintro ⟨_, ⟨⟩⟩
      exact ⟨rfl, rfl⟩
  | error d =>
    constructor
    · rintro ⟨herrors, -⟩
      exact absurd herrors (by simp)
    · rintro ⟨_, ⟨⟩⟩

section Ending

variable {ts : List Token} {e : Token} (he : e.kind = .endOfFile)
  (hts : ∀ t ∈ ts, t.kind ≠ .endOfFile)
include he hts

theorem ahead_append_end : ahead (ts ++ [e]) = ts := by
  unfold ahead
  rw [List.takeWhile_append_of_pos (by simpa [isEnd] using hts)]
  simp [isEnd, he]

theorem endToken_append_end : endToken (ts ++ [e]) = e := by
  have hnone : ts.find? isEnd = none := by
    rw [List.find?_eq_none]
    exact fun t ht => by simpa [isEnd] using hts t ht
  simp [endToken, List.find?_append, hnone, isEnd, he]

/-- Without a diagnostic, what parsing answers with is derived. -/
theorem derives_parse (hbalanced : Balanced (ts ++ [e])) (h : (parse (ts ++ [e])).errors = []) :
    Derives (.program (parse (ts ++ [e])).stmts) (ts ++ [e]) := by
  obtain ⟨rest, hyields⟩ := errors_parse_eq_nil.1 ⟨h, rfl⟩
  rw [ahead_append_end he hts, endToken_append_end he hts] at hyields
  refine .program (sound_program he _ (Nat.lt_succ_self _) (Nat.lt_succ_self _) hts ?_ hyields) he
  intro us hus
  refine hbalanced.1 us ((List.mem_inits us _).2 ?_)
  exact hus.trans (List.prefix_append ts [e])

/-- What is derived is what parsing answers with, without a diagnostic. -/
theorem parse_of_derives {program : List Stmt} (h : Derives (.program program) (ts ++ [e])) :
    (parse (ts ++ [e])).errors = [] ∧ (parse (ts ++ [e])).stmts = program := by
  have hstatements : Derives (.statements program) ts := by
    generalize htokens : ts ++ [e] = tokens at h
    cases h with
    | program hss _ =>
      obtain ⟨rfl, -⟩ := List.append_inj' htokens rfl
      exact hss
  rw [errors_parse_eq_nil, ahead_append_end he hts, endToken_append_end he hts]
  exact ⟨[], yields_program_of_derives he hstatements _ _ (Nat.lt_succ_self _) (Nat.lt_succ_self _)⟩

/-- Parsing accepts exactly what the grammar derives, and answers with the one tree that is derived,
whose tokens are those parsed. -/
theorem parse_exact (hbalanced : Balanced (ts ++ [e])) :
    ((parse (ts ++ [e])).errors = [] ↔ ∃ program, Derives (.program program) (ts ++ [e])) ∧
      ((parse (ts ++ [e])).errors = [] →
        Derives (.program (parse (ts ++ [e])).stmts) (ts ++ [e]) ∧
          (∀ program, Derives (.program program) (ts ++ [e]) →
            program = (parse (ts ++ [e])).stmts) ∧
          List.Forall₂ Terminal.Is (Phrase.program (parse (ts ++ [e])).stmts).terminals
            (ts ++ [e])) := by
  refine ⟨⟨fun h => ?_, ?_⟩, fun h => ?_⟩
  · exact ⟨_, derives_parse he hts hbalanced h⟩
  · rintro ⟨program, h⟩
    exact (parse_of_derives he hts h).1
  · have hderives := derives_parse he hts hbalanced h
    refine ⟨hderives, fun program h' => ?_, hderives.terminals⟩
    exact (parse_of_derives he hts h').2.symm

end Ending

/-- A conditional with both branches, under a negated condition. -/
theorem parse_exact_conditional :
    let token (kind : Kind) : Token :=
      { kind := kind, lexeme := "", line := 1, span := Span.empty 0 }
    let body : List Kind :=
      [.newline, .indent, .identifier, .leftParen, .rightParen, .newline, .dedent]
    let kinds : List Kind := [.ifWord, .notWord, .trueWord] ++ body ++ .otherwiseWord :: body
    let tokens := kinds.map token ++ [token .endOfFile]
    Balanced tokens ∧ (parse tokens).errors = [] ∧
      Derives (.program (parse tokens).stmts) tokens := by
  intro token body kinds tokens
  have hbalanced : Balanced tokens := by decide
  have herrors : (parse tokens).errors = [] := by decide +kernel
  exact ⟨hbalanced, herrors, ((parse_exact rfl (by decide) hbalanced).2 herrors).1⟩

end Offside.Grammar
