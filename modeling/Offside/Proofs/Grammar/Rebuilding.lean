import Offside.Proofs.Grammar.Relabeling
import Offside.Proofs.Spelling

/-!
# Trees from their tokens

A tree whose operands hold together as tightly as their places ask for, and whose tokens have the
words of their parts, is derived from any tokens that are as the tree tells. The tokens may stand in
other places than those of the tree, so what is derived is the tree up to the places of tokens.

* `Expr.rank`: how tightly an expression holds together;
* `Expr.WellFormed`, `Stmt.WellFormed`, `Else.WellFormed`: the trees that can be written;
* `Grammar.rebuild_stmts`: such trees are derived from their tokens.
-/

namespace Offside

open Grammar (Rank Operator Sign Connective)

/-! ### Ranks -/

/-- The number of ranks looser than a rank. -/
def Grammar.Rank.level : Rank → Nat
  | .disjunction => 0
  | .conjunction => 1
  | .comparison => 2
  | .sum => 3
  | .product => 4
  | .prefixed => 5
  | .applied => 6
  | .primary => 7

def LogicalOp.rank : LogicalOp → Rank
  | .or => .disjunction
  | .and => .conjunction

def BinaryOp.rank : BinaryOp → Rank
  | .less | .lessEqual | .greater | .greaterEqual | .equal | .notEqual => .comparison
  | .add | .subtract => .sum
  | .multiply | .divide => .product

/-- The tightest rank that an expression can stand for without parentheses around it. -/
def Expr.rank : Expr → Rank
  | .constant _ | .variable _ | .group _ => .primary
  | .call _ _ _ => .applied
  | .unary _ _ _ => .prefixed
  | .binary op _ _ _ => op.rank
  | .logical op _ _ _ => op.rank

/-! ### Well-formed trees -/

/-- An operator between operands, and operands that need no parentheses beside it. -/
structure Joins (rank : Rank) (c : Connective) (token : Token) (left right : Expr) : Prop where
  operator : ∃ kind, Operator rank kind c ∧ token.IsWord kind
  left : rank.level ≤ left.rank.level
  right : rank.level < right.rank.level

mutual

/-- An expression that can be written: its tokens have the words of their parts, operands that need
parentheses have them, and a call has no more than 255 arguments. -/
def Expr.WellFormed : Expr → Prop
  | .constant c => c.Writable
  | .variable name => name.IsName
  | .group inner => inner.WellFormed
  | .unary op token operand =>
    (∃ kind, Sign kind op ∧ token.IsWord kind) ∧ Rank.prefixed.level ≤ operand.rank.level ∧
      operand.WellFormed
  | .binary op token left right =>
    Joins op.rank (.binary op) token left right ∧ left.WellFormed ∧ right.WellFormed
  | .logical op token left right =>
    Joins op.rank (.logical op) token left right ∧ left.WellFormed ∧ right.WellFormed
  | .call callee args paren =>
    Rank.applied.level ≤ callee.rank.level ∧ callee.WellFormed ∧ Expr.AllWellFormed args ∧
      args.length ≤ 255 ∧ paren.IsWord .rightParen

/-- Expressions that can all be written. -/
def Expr.AllWellFormed : List Expr → Prop
  | [] => True
  | e :: es => e.WellFormed ∧ Expr.AllWellFormed es

end

mutual

/-- A statement that can be written. A block stands only within other statements, and is not
empty. -/
def Stmt.WellFormed : Stmt → Prop
  | .block _ => False
  | .change target value => target.IsName ∧ value.WellFormed
  | .create name value => name.IsName ∧ value.WellFormed
  | .define name params body =>
    name.IsName ∧ (∀ p ∈ params, p.IsName) ∧ params.length ≤ 255 ∧ body ≠ [] ∧
      Stmt.AllWellFormed body
  | .expression value => value.WellFormed
  | .branch token cond body rest =>
    token.IsWord .ifWord ∧ cond.WellFormed ∧ body ≠ [] ∧ Stmt.AllWellFormed body ∧ rest.WellFormed
  | .repeatTimes token count body =>
    token.IsWord .repeatWord ∧ count.WellFormed ∧ body ≠ [] ∧ Stmt.AllWellFormed body
  | .repeatWhile token cond body =>
    token.IsWord .repeatWord ∧ cond.WellFormed ∧ body ≠ [] ∧ Stmt.AllWellFormed body
  | .returnEmpty token => token.IsWord .returnWord
  | .returnWith token value => token.IsWord .returnWord ∧ value.WellFormed

/-- Statements that can all be written. -/
def Stmt.AllWellFormed : List Stmt → Prop
  | [] => True
  | s :: ss => s.WellFormed ∧ Stmt.AllWellFormed ss

/-- Further branches of a conditional that can be written. -/
def Else.WellFormed : Else → Prop
  | .nothing => True
  | .block body => body ≠ [] ∧ Stmt.AllWellFormed body
  | .branch token cond body rest =>
    token.IsWord .ifWord ∧ cond.WellFormed ∧ body ≠ [] ∧ Stmt.AllWellFormed body ∧ rest.WellFormed

end

namespace Grammar

/-! ### Expressions -/

theorem Derives.loosen {r r' : Rank} {e : Expr} {ts : List Token}
    (h : Derives (.expression r' e) ts) (hle : r.level ≤ r'.level) : Derives (.expression r e) ts := by
  obtain ⟨n, hn⟩ := Nat.exists_eq_add_of_le hle
  induction n generalizing r with
  | zero =>
    obtain rfl : r = r' := by cases r <;> cases r' <;> first | rfl | cases hn
    exact h
  | succ n ih =>
    have hnext : r.next.level = r.level + 1 := by
      cases r with
      | primary => cases r' <;> simp [Rank.level] at hn <;> omega
      | _ => rfl
    exact .tighter (ih (by omega) (by omega))

/-- The loosest rank is that of an expression as a whole. -/
theorem Derives.loosest {r : Rank} {e : Expr} {ts : List Token} (h : Derives (.expression r e) ts) :
    Derives (.expression .disjunction e) ts := h.loosen (Nat.zero_le _)

section Kinds

variable {t u : Token}

theorem erase_of_reads (h : Terminal.Reads (.token t) u) : u.erase = t.erase := h

theorem kind_of_reads (h : Terminal.Reads (.token t) u) : u.kind = t.kind := by
  have hkind : u.erase.kind = t.erase.kind := by rw [erase_of_reads h]
  exact hkind

theorem kind_of_word {kind : Kind} (ht : t.IsWord kind) (h : Terminal.Reads (.token t) u) :
    u.kind = kind := (kind_of_reads h).trans ht.kind_eq

theorem kind_of_name (ht : t.IsName) (h : Terminal.Reads (.token t) u) : u.kind = .identifier :=
  (kind_of_reads h).trans ht.kind_eq

end Kinds

theorem split_name {name : Token} (hname : name.IsName) {ts : List Token}
    (h : List.Forall₂ Terminal.Reads [.token name] ts) :
    ∃ u, u.erase = name.erase ∧ ts = [u] ∧ u.kind = .identifier := by
  obtain ⟨u, rfl, hu⟩ := split_forall₂_singleton h
  exact ⟨u, hu, rfl, kind_of_name hname hu⟩

/-- An operator between operands that are rebuilt. -/
theorem rebuild_joins {rank : Rank} {c : Connective} {token : Token} {left right : Expr}
    (h : Joins rank c token left right) {ts us : List Token} {u : Token} {l r : Expr}
    (hl : Derives (.expression left.rank l) ts) (hu : Terminal.Reads (.token token) u)
    (hr : Derives (.expression right.rank r) us) :
    Derives (.expression rank (c.apply u l r)) (ts ++ u :: us) := by
  obtain ⟨kind, hop, hword⟩ := h.operator
  have hkind : u.kind = kind := kind_of_word hword hu
  have hnext : rank.next.level ≤ right.rank.level := by
    have hright := h.right
    have hle : rank.next.level ≤ rank.level + 1 := by cases rank <;> decide
    omega
  exact .binary (hl.loosen h.left) (hkind ▸ hop) (hr.loosen hnext)

mutual

/-- An expression that can be written is derived, up to places, from tokens as it tells. -/
theorem rebuild_expr : ∀ (e : Expr), e.WellFormed → ∀ {ts : List Token},
    List.Forall₂ Terminal.Reads (exprTerminals e) ts →
    ∃ e', e'.mapTokens Token.erase = e.mapTokens Token.erase ∧ Derives (.expression e.rank e') ts
  | .constant c, _, ts, h => by
    obtain ⟨u, rfl, hu⟩ := split_forall₂_singleton h
    exact ⟨.constant c, rfl, .constant hu⟩
  | .variable name, hname, ts, h => by
    obtain ⟨u, hu, rfl, hkind⟩ := split_name hname h
    exact ⟨.variable u, by simp [Expr.mapTokens, hu], .variable hkind⟩
  | .group inner, hinner, ts, h => by
    obtain _ | ⟨hl, h⟩ := h
    obtain ⟨us, rs, rfl, hus, hrs⟩ := split_forall₂_append h
    obtain ⟨r, rfl, hr⟩ := split_forall₂_singleton hrs
    obtain ⟨e', he', hd⟩ := rebuild_expr inner hinner hus
    exact ⟨.group e', by simp [Expr.mapTokens, he'], .group hl hd.loosest hr⟩
  | .unary op token operand, ⟨⟨kind, hsign, hword⟩, hrank, hoperand⟩, ts, h => by
    obtain _ | ⟨hu, h⟩ := h
    obtain ⟨e', he', hd⟩ := rebuild_expr operand hoperand h
    have hkind := kind_of_word hword hu
    exact ⟨.unary op _ e', by simp [Expr.mapTokens, he', erase_of_reads hu],
      .unary (hkind ▸ hsign) (hd.loosen hrank)⟩
  | .binary op token left right, ⟨hjoins, hleft, hright⟩, ts, h => by
    obtain ⟨ls, us, rfl, hls, hus⟩ := split_forall₂_append h
    obtain _ | ⟨hu, hus⟩ := hus
    obtain ⟨l', hl', hdl⟩ := rebuild_expr left hleft hls
    obtain ⟨r', hr', hdr⟩ := rebuild_expr right hright hus
    exact ⟨.binary op _ l' r', by simp [Expr.mapTokens, hl', hr', erase_of_reads hu],
      rebuild_joins hjoins hdl hu hdr⟩
  | .logical op token left right, ⟨hjoins, hleft, hright⟩, ts, h => by
    obtain ⟨ls, us, rfl, hls, hus⟩ := split_forall₂_append h
    obtain _ | ⟨hu, hus⟩ := hus
    obtain ⟨l', hl', hdl⟩ := rebuild_expr left hleft hls
    obtain ⟨r', hr', hdr⟩ := rebuild_expr right hright hus
    exact ⟨.logical op _ l' r', by simp [Expr.mapTokens, hl', hr', erase_of_reads hu],
      rebuild_joins hjoins hdl hu hdr⟩
  | .call callee args paren, ⟨hrank, hcallee, hargs, hlength, hparen⟩, ts, h => by
    obtain ⟨fs, us, rfl, hfs, hus⟩ := split_forall₂_append h
    obtain _ | ⟨hl, hus⟩ := hus
    obtain ⟨as, rs, rfl, has, hrs⟩ := split_forall₂_append hus
    obtain ⟨r, rfl, hr⟩ := split_forall₂_singleton hrs
    obtain ⟨f', hf', hdf⟩ := rebuild_expr callee hcallee hfs
    have hkind := kind_of_word hparen hr
    by_cases hnil : args = []
    · subst hnil
      obtain _ | _ := has
      exact ⟨.call f' [] r, by simp [Expr.mapTokens, hf', erase_of_reads hr],
        .call (hdf.loosen hrank) hl hkind⟩
    · obtain ⟨as', has', hda⟩ := rebuild_exprs args hargs hnil has
      have hlength' : as'.length ≤ 255 := by
        rw [← length_mapAllTokens (f := Token.erase), has', length_mapAllTokens]
        exact hlength
      exact ⟨.call f' as' r, by simp [Expr.mapTokens, hf', has', erase_of_reads hr],
        .callWith (hdf.loosen hrank) hl hda hlength' hkind⟩

/-- The same for the arguments of a call. -/
theorem rebuild_exprs : ∀ (es : List Expr), Expr.AllWellFormed es → es ≠ [] → ∀ {ts : List Token},
    List.Forall₂ Terminal.Reads (separated (exprsTerminals es)) ts →
    ∃ es', Expr.mapAllTokens Token.erase es' = Expr.mapAllTokens Token.erase es ∧
      Derives (.arguments es') ts
  | [], _, hne, ts, h => absurd rfl hne
  | [e], ⟨he, _⟩, _, ts, h => by
    obtain ⟨e', he', hd⟩ := rebuild_expr e he h
    exact ⟨[e'], by simp [Expr.mapAllTokens, he'], .argument hd.loosest⟩
  | e :: f :: es, ⟨he, hes⟩, _, ts, h => by
    obtain ⟨us, vs, rfl, hus, hvs⟩ := split_forall₂_append h
    obtain _ | ⟨hc, hvs⟩ := hvs
    obtain ⟨e', he', hd⟩ := rebuild_expr e he hus
    obtain ⟨es', hes', hds⟩ := rebuild_exprs (f :: es) hes (List.cons_ne_nil _ _) hvs
    exact ⟨e' :: es', by rw [Expr.mapAllTokens, he', hes']; rfl,
      .moreArguments hd.loosest hc hds⟩

end

/-! ### Statements -/

theorem rebuild_params {ps : List Token} (hps : ∀ p ∈ ps, p.IsName) (hne : ps ≠ [])
    {ts : List Token} (h : List.Forall₂ Terminal.Reads (separated (ps.map fun p => [.token p])) ts) :
    ∃ ps', ps'.map Token.erase = ps.map Token.erase ∧ Derives (.parameters ps') ts := by
  induction ps generalizing ts with
  | nil => exact absurd rfl hne
  | cons p ps ih =>
    obtain ⟨hp, hlater⟩ := List.forall_mem_cons.1 hps
    cases ps with
    | nil =>
      obtain ⟨u, hu, rfl, hkind⟩ := split_name hp h
      exact ⟨[u], by simp [hu], .parameter hkind⟩
    | cons q ps =>
      obtain _ | ⟨hu, _ | ⟨hc, h⟩⟩ := h
      obtain ⟨ps', hps', hd⟩ := ih hlater (List.cons_ne_nil _ _) h
      refine ⟨_ :: ps', ?_, .moreParameters (kind_of_name hp hu) hc hd⟩
      rw [List.map_cons, hps', erase_of_reads hu]
      rfl

/-- A block around statements that are rebuilt. -/
theorem rebuild_block {body : List Stmt} (hne : body ≠ [])
    (hbody : ∀ {ts : List Token}, List.Forall₂ Terminal.Reads (stmtsTerminals body) ts →
      ∃ body', Stmt.mapAllTokens Token.erase body' = Stmt.mapAllTokens Token.erase body ∧
        Derives (.statements body') ts)
    {ts : List Token} (h : List.Forall₂ Terminal.Reads (blockTerminals (stmtsTerminals body)) ts) :
    ∃ body', Stmt.mapAllTokens Token.erase body' = Stmt.mapAllTokens Token.erase body ∧
      Derives (.block body') ts := by
  obtain _ | ⟨hn, _ | ⟨hi, h⟩⟩ := h
  obtain ⟨us, ds, rfl, hus, hds⟩ := split_forall₂_append h
  obtain ⟨d, rfl, hd⟩ := split_forall₂_singleton hds
  obtain ⟨body', hbody', hderives⟩ := hbody hus
  refine ⟨body', hbody', .block hn hi hderives ?_ hd⟩
  rintro rfl
  cases body with
  | nil => exact hne rfl
  | cons s ss => cases hbody'

mutual

/-- A statement that can be written is derived, up to places, from tokens as it tells. -/
theorem rebuild_stmt : ∀ (s : Stmt), s.WellFormed → ∀ {ts : List Token},
    List.Forall₂ Terminal.Reads (stmtTerminals s) ts →
    ∃ s', s'.mapTokens Token.erase = s.mapTokens Token.erase ∧ Derives (.statement s') ts
  | .block _, h, _, _ => h.elim
  | .change target value, ⟨hname, hvalue⟩, ts, h => by
    obtain _ | ⟨hw, _ | ⟨hu, _ | ⟨hq, h⟩⟩⟩ := h
    obtain ⟨us, ns, rfl, hus, hns⟩ := split_forall₂_append h
    obtain ⟨n, rfl, hn⟩ := split_forall₂_singleton hns
    obtain ⟨e', he', hd⟩ := rebuild_expr value hvalue hus
    have htarget := Derives.variable (kind_of_name hname hu)
    exact ⟨.change _ e', by simp [Stmt.mapTokens, he', erase_of_reads hu],
      .change hw htarget.loosest hq hd.loosest hn⟩
  | .create name value, ⟨hname, hvalue⟩, ts, h => by
    obtain _ | ⟨hw, _ | ⟨hu, _ | ⟨hq, h⟩⟩⟩ := h
    obtain ⟨us, ns, rfl, hus, hns⟩ := split_forall₂_append h
    obtain ⟨n, rfl, hn⟩ := split_forall₂_singleton hns
    obtain ⟨e', he', hd⟩ := rebuild_expr value hvalue hus
    exact ⟨.create _ e', by simp [Stmt.mapTokens, he', erase_of_reads hu],
      .create hw (kind_of_name hname hu) hq hd.loosest hn⟩
  | .define name params body, ⟨hname, hparams, hlength, hne, hbody⟩, ts, h => by
    obtain _ | ⟨hw, _ | ⟨hu, _ | ⟨hl, h⟩⟩⟩ := h
    obtain ⟨ps, us, rfl, hps, hus⟩ := split_forall₂_append h
    obtain _ | ⟨hr, hus⟩ := hus
    obtain ⟨body', hbody', hd⟩ := rebuild_block hne (rebuild_stmts body hbody) hus
    have hkind := kind_of_name hname hu
    cases params with
    | nil =>
      obtain _ | _ := hps
      exact ⟨.define _ [] body', by simp [Stmt.mapTokens, hbody', erase_of_reads hu],
        .define hw hkind hl hr hd⟩
    | cons p params =>
      obtain _ | ⟨ha, hps⟩ := hps
      obtain ⟨ps', hps', hdp⟩ := rebuild_params hparams (List.cons_ne_nil _ _) hps
      have hlength' : ps'.length ≤ 255 := by
        rw [← List.length_map (f := Token.erase), hps', List.length_map]
        exact hlength
      exact ⟨.define _ ps' body', by rw [Stmt.mapTokens, hps', hbody', erase_of_reads hu]; rfl,
        .defineWith hw hkind hl ha hdp hlength' hr hd⟩
  | .expression value, hvalue, ts, h => by
    obtain ⟨us, ns, rfl, hus, hns⟩ := split_forall₂_append h
    obtain ⟨n, rfl, hn⟩ := split_forall₂_singleton hns
    obtain ⟨e', he', hd⟩ := rebuild_expr value hvalue hus
    exact ⟨.expression e', by simp [Stmt.mapTokens, he'],
      .expressionStatement hd.loosest hn⟩
  | .branch token cond body rest, ⟨hword, hcond, hne, hbody, hrest⟩, ts, h => by
    obtain _ | ⟨hu, h⟩ := h
    obtain ⟨cs, us, rfl, hcs, hus⟩ := split_forall₂_append h
    obtain ⟨bs, rs, rfl, hbs, hrs⟩ := split_forall₂_append hus
    obtain ⟨e', he', hd⟩ := rebuild_expr cond hcond hcs
    obtain ⟨body', hbody', hdb⟩ := rebuild_block hne (rebuild_stmts body hbody) hbs
    obtain ⟨r', hr', hdr⟩ := rebuild_else rest hrest hrs
    exact ⟨.branch _ e' body' r', by simp [Stmt.mapTokens, he', hbody', hr', erase_of_reads hu],
      .conditional (kind_of_word hword hu) hd.loosest hdb hdr⟩
  | .repeatTimes token count body, ⟨hword, hcount, hne, hbody⟩, ts, h => by
    obtain _ | ⟨hu, h⟩ := h
    obtain ⟨cs, us, rfl, hcs, hus⟩ := split_forall₂_append h
    obtain _ | ⟨hm, hus⟩ := hus
    obtain ⟨e', he', hd⟩ := rebuild_expr count hcount hcs
    obtain ⟨body', hbody', hdb⟩ := rebuild_block hne (rebuild_stmts body hbody) hus
    exact ⟨.repeatTimes _ e' body', by simp [Stmt.mapTokens, he', hbody', erase_of_reads hu],
      .repeatTimes (kind_of_word hword hu) hd.loosest hm hdb⟩
  | .repeatWhile token cond body, ⟨hword, hcond, hne, hbody⟩, ts, h => by
    obtain _ | ⟨hu, _ | ⟨hm, h⟩⟩ := h
    obtain ⟨cs, us, rfl, hcs, hus⟩ := split_forall₂_append h
    obtain ⟨e', he', hd⟩ := rebuild_expr cond hcond hcs
    obtain ⟨body', hbody', hdb⟩ := rebuild_block hne (rebuild_stmts body hbody) hus
    exact ⟨.repeatWhile _ e' body', by simp [Stmt.mapTokens, he', hbody', erase_of_reads hu],
      .repeatWhile (kind_of_word hword hu) hm hd.loosest hdb⟩
  | .returnEmpty token, hword, ts, h => by
    obtain _ | ⟨hu, h⟩ := h
    obtain ⟨n, rfl, hn⟩ := split_forall₂_singleton h
    exact ⟨.returnEmpty _, by simp [Stmt.mapTokens, erase_of_reads hu],
      .returnEmpty (kind_of_word hword hu) hn⟩
  | .returnWith token value, ⟨hword, hvalue⟩, ts, h => by
    obtain _ | ⟨hu, _ | ⟨hm, h⟩⟩ := h
    obtain ⟨us, ns, rfl, hus, hns⟩ := split_forall₂_append h
    obtain ⟨n, rfl, hn⟩ := split_forall₂_singleton hns
    obtain ⟨e', he', hd⟩ := rebuild_expr value hvalue hus
    exact ⟨.returnWith _ e', by simp [Stmt.mapTokens, he', erase_of_reads hu],
      .returnWith (kind_of_word hword hu) hm hd.loosest hn⟩

/-- The same for statements in a row. -/
theorem rebuild_stmts : ∀ (ss : List Stmt), Stmt.AllWellFormed ss → ∀ {ts : List Token},
    List.Forall₂ Terminal.Reads (stmtsTerminals ss) ts →
    ∃ ss', Stmt.mapAllTokens Token.erase ss' = Stmt.mapAllTokens Token.erase ss ∧
      Derives (.statements ss') ts
  | [], _, ts, h => by
    obtain _ | _ := h
    exact ⟨[], rfl, .noStatements⟩
  | s :: ss, ⟨hs, hss⟩, ts, h => by
    obtain ⟨us, vs, rfl, hus, hvs⟩ := split_forall₂_append h
    obtain ⟨s', hs', hd⟩ := rebuild_stmt s hs hus
    obtain ⟨ss', hss', hds⟩ := rebuild_stmts ss hss hvs
    exact ⟨s' :: ss', by rw [Stmt.mapAllTokens, hs', hss']; rfl, .moreStatements hd hds⟩

/-- The same for the further branches of a conditional. -/
theorem rebuild_else : ∀ (r : Else), r.WellFormed → ∀ {ts : List Token},
    List.Forall₂ Terminal.Reads (elseTerminals r) ts →
    ∃ r', r'.mapTokens Token.erase = r.mapTokens Token.erase ∧ Derives (.alternatives r') ts
  | .nothing, _, ts, h => by
    obtain _ | _ := h
    exact ⟨.nothing, rfl, .nothing⟩
  | .block body, ⟨hne, hbody⟩, ts, h => by
    obtain _ | ⟨hw, h⟩ := h
    obtain ⟨body', hbody', hd⟩ := rebuild_block hne (rebuild_stmts body hbody) h
    exact ⟨.block body', by simp [Else.mapTokens, hbody'], .otherwise hw hd⟩
  | .branch token cond body rest, ⟨hword, hcond, hne, hbody, hrest⟩, ts, h => by
    obtain _ | ⟨hw, _ | ⟨hu, h⟩⟩ := h
    obtain ⟨cs, us, rfl, hcs, hus⟩ := split_forall₂_append h
    obtain ⟨bs, rs, rfl, hbs, hrs⟩ := split_forall₂_append hus
    obtain ⟨e', he', hd⟩ := rebuild_expr cond hcond hcs
    obtain ⟨body', hbody', hdb⟩ := rebuild_block hne (rebuild_stmts body hbody) hbs
    obtain ⟨r', hr', hdr⟩ := rebuild_else rest hrest hrs
    exact ⟨.branch _ e' body' r', by simp [Else.mapTokens, he', hbody', hr', erase_of_reads hu],
      .otherwiseIf hw (kind_of_word hword hu) hd.loosest hdb hdr⟩

end

end Grammar

end Offside
