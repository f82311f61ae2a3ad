import Offside.Proofs.Grammar.Bounds
import Offside.Proofs.Grammar.Isolation
import Offside.Proofs.Grammar.Relabeling
import Offside.Proofs.Nesting

/-!
# What a malformed header costs

Where the header of a conditional is malformed, recovery skips the header line and its block, and
goes on at the first further branch. No statement starts with `otherwise`, so the branch is reported
in its turn: the header costs two diagnostics, however many branches there are. What is left of the
branches is skipped if it is a single block, and read as a conditional of its own if it starts with
another condition.

* `Derives.depthAfter`: what is derived leaves the levels open that it finds open;
* `statement_otherwise`: reading a statement stops at `otherwise`;
* `resumed`, `Derives.recovers`: what becomes of the further branches;
* `Derives.behind_header`: a conditional without its header line;
* `failed_header_cascades`: the two diagnostics.
-/

namespace Offside.Grammar

open Offside.Parser

variable {last : Token} {d : Diagnostic}

/-! ### Blocks as regions -/

/-- What is derived closes the levels that it opens, and no others. -/
theorem Derives.depthAfter {ph : Phrase} {ts : List Token} (h : Derives ph ts) (depth : Nat) :
    Layout.depthAfter depth ts = some depth := by
  induction h generalizing depth with
  | constant hc =>
    obtain ⟨hi, hd⟩ := opensExpression_ne hc.opens
    simp [Layout.depthAfter, hi, hd]
  | unary hop _ ih =>
    obtain ⟨hi, hd⟩ := opensExpression_ne hop.opens
    simp [Layout.depthAfter, hi, hd, ih]
  | binary _ hop _ ih ih' =>
    obtain ⟨hi, hd⟩ := hop.kind_ne
    simp [Layout.depthAfter, Layout.depthAfter_append, hi, hd, ih, ih']
  | noStatements | nothing => rfl
  | _ => simp_all [Layout.depthAfter, Layout.depthAfter_append]

/-- A block is the end of a line and an indented region. -/
theorem Derives.region {ss : List Stmt} {ts : List Token} (h : Derives (.block ss) ts) :
    ∃ n i region, ts = n :: region ∧ n.kind = .newline ∧ Region i region := by
  have hends := h.kind_ne_end nofun
  cases h with
  | @block n i d _ ts hn hi hss _ hd =>
    have hbalanced := Layout.balanced_of_depthAfter (hss.depthAfter 0)
    exact ⟨n, i, i :: (ts ++ [d]), rfl, hn, hi, ⟨ts, d, rfl, hbalanced, hd⟩,
      (List.forall_mem_cons.1 hends).2⟩

/-! ### At `otherwise` -/

section

variable {ts rest : List Token} {operand : Parser Expr}

theorem levels_of_error (bound : Nat) (tables : List (Kind → Option Connective))
    (h : operand last ts = ⟨.error d, [], rest⟩) :
    tables.foldr (level bound) operand last ts = ⟨.error d, [], rest⟩ := by
  induction tables with
  | nil => exact h
  | cons connective? tables ih => exact bind_of_error ih

theorem unary_of_error {bound : Nat} (hsign : unary? (ts.headD last).kind = none)
    (h : operand last ts = ⟨.error d, [], rest⟩) :
    unary operand bound last ts = ⟨.error d, [], rest⟩ := by
  cases bound with
  | zero => exact h
  | succ bound =>
    rw [unary, peek_bind, hsign]
    exact h

end

/-- No statement starts with `otherwise`. -/
theorem statement_otherwise {o : Token} (ho : o.kind = .otherwiseWord) (n : Nat) (last : Token)
    (ts : List Token) :
    statement n last (o :: ts) =
      ⟨.error (o.diagnose (.grammar .expectedExpression)), [], o :: ts⟩ := by
  cases n with
  | zero => rfl
  | succ n =>
    have hprimary : primary (expression n) last (o :: ts) =
        ⟨.error (o.diagnose (.grammar .expectedExpression)), [], o :: ts⟩ := by
      rw [primary, peek_bind, List.headD_cons, ho]
      rfl
    have hexpression : expression (n + 1) last (o :: ts) =
        ⟨.error (o.diagnose (.grammar .expectedExpression)), [], o :: ts⟩ :=
      levels_of_error n levels (unary_of_error (by rw [List.headD_cons, ho]; rfl)
        (bind_of_error hprimary))
    rw [statement, statementOf, peek_bind, List.headD_cons, ho]
    exact bind_of_error hexpression

/-- The statements that are read from the further branches of a conditional whose header failed. -/
def resumed : Else → List Stmt
  | .branch token cond body rest => [.branch token cond body rest]
  | .nothing | .block _ => []

/-- Recovery from `otherwise` skips a branch without a condition, and stops at the condition of any
other, where a conditional starts. -/
theorem Derives.recovers {r : Else} {vs : List Token} (h : Derives (.alternatives r) vs)
    (hr : r ≠ .nothing) :
    ∃ o us ws, vs = o :: us ∧ o.kind = .otherwiseWord ∧ ws <:+ us ∧
      Derives (.statements (resumed r)) ws ∧
      ∀ last n after, (after.headD last).kind ≠ .indent →
        (recovering (statement n)).Records [o.diagnose (.grammar .expectedExpression)] last
          (vs ++ after) none (ws ++ after) := by
  cases h with
  | nothing => exact absurd rfl hr
  | @otherwise o ss us ho hss =>
    refine ⟨o, us, [], rfl, ho, List.nil_suffix, .noStatements, fun last n after hafter => ?_⟩
    -- the line ends after the word, and its block is a region that no statement owns
    obtain ⟨n', i, region, rfl, hn', hregion⟩ := hss.region
    have hskip : synchronize (o :: n' :: region ++ after) = after := by
      rw [List.cons_append, synchronize, ho, List.cons_append]
      simp only [skipStatement, hn']
      exact skipOrphan_region (.inr ⟨i, hregion⟩) hafter
    have hrecovers := recovering_of_error (statement_otherwise ho n last (n' :: region ++ after))
    rwa [← List.cons_append, hskip] at hrecovers
  | @otherwiseIf o m e ss r ts us vs ho hm he hss hmore =>
    have hconditional := Derives.conditional hm he hss hmore
    refine ⟨o, _, m :: (ts ++ (us ++ vs)), rfl, ho, List.suffix_rfl, ?_, fun last n after _ => ?_⟩
    · simpa [resumed] using Derives.moreStatements hconditional .noStatements
    -- the next word starts a statement, so nothing but `otherwise` is skipped
    have hskip : synchronize (o :: m :: (ts ++ (us ++ vs)) ++ after) =
        m :: (ts ++ (us ++ vs)) ++ after := by
      rw [List.cons_append, synchronize, ho, List.cons_append]
      simp only [skipStatement, hm]
      rfl
    have hrecovers := recovering_of_error (statement_otherwise ho n last
      (m :: (ts ++ (us ++ vs)) ++ after))
    rwa [← List.cons_append, hskip] at hrecovers

/-- The further branches, and the statements after them, are read with one diagnostic. -/
theorem Derives.records_alternatives (hlast : last.kind = .endOfFile) {r : Else} {ss : List Stmt}
    {vs q : List Token} (h : Derives (.alternatives r) vs) (hr : r ≠ .nothing)
    (hq : Derives (.statements ss) q) :
    ∃ o us ws, vs = o :: us ∧ o.kind = .otherwiseWord ∧ Derives (.statements (resumed r)) ws ∧
      ∀ n bound rest, (vs ++ (q ++ rest)).length < n → (vs ++ (q ++ rest)).length < bound →
      (rest.headD last).kind = .dedent ∨ (rest.headD last).kind = .endOfFile →
      (statements (statement n) bound).Records [o.diagnose (.grammar .expectedExpression)] last
        (vs ++ (q ++ rest)) (resumed r ++ ss) rest := by
  obtain ⟨o, us, ws, rfl, ho, hsuffix, hws, hrecovers⟩ := h.recovers hr
  refine ⟨o, us, ws, rfl, ho, hws, fun n bound rest hlen hbound hrest => ?_⟩
  have hskip := hrecovers last n (q ++ rest) (hq.after_statement rfl rest (ne_of_endsBlock hrest).2)
  have hwsLength := hsuffix.length_le
  simp only [List.cons_append, List.length_cons, List.length_append] at hlen hbound
  cases bound with
  | zero => omega
  | succ bound =>
    have hmore := (hws.append_statements hq).read hlast n bound rest (by simp; omega)
      (by simp; omega) hrest
    rw [List.append_assoc] at hmore
    refine records_statements_skip ?_ ?_ hskip hmore
    · simp [ho]
    · simp [ho]

/-! ### Header lines -/

/-- Phrases that stand on one line. -/
def Phrase.OnLine : Phrase → Prop
  | .expression _ _ | .arguments _ => True
  | _ => False

theorem Derives.not_isStructural {ph : Phrase} {ts : List Token} (h : Derives ph ts)
    (hph : ph.OnLine) : ∀ t ∈ ts, t.kind.isStructural = false := by
  induction h with
  | constant hc => simpa using not_isStructural_of_denotes hc
  | «variable» hk => simp [hk, Kind.isStructural]
  | tighter _ ih | argument _ ih => exact ih trivial
  | unary hop _ ih => simp_all [hop.not_isStructural, Phrase.OnLine]
  | binary _ hop _ ih ih' => simp_all [or_imp, hop.not_isStructural, Phrase.OnLine]
  | group _ _ _ _ | call _ _ _ _ | callWith _ _ _ _ _ _ _ | moreArguments _ _ _ _ _ =>
    simp_all [or_imp, Phrase.OnLine, Kind.isStructural]
  | _ => cases hph

/-- A conditional without its header line: the region of its body, and its further branches. -/
theorem Derives.behind_header {w : Token} {cond : Expr} {body : List Stmt} {r : Else}
    {header tail : List Token} (h : Derives (.statement (.branch w cond body r)) (header ++ tail))
    (hheader : IsLine header) :
    ∃ i region vs, tail = region ++ vs ∧ Region i region ∧ Derives (.alternatives r) vs := by
  have hcut : ∀ {text : List Token} {n : Token} (more : List Token), n.kind = .newline →
      (∀ t ∈ text, t.kind.isStructural = false) →
      (text ++ n :: more).dropWhile (fun t => !t.kind.isStructural) = n :: more := by
    intro text n more hn htext
    rw [List.dropWhile_append_of_pos (by simpa using htext)]
    simp [hn, Kind.isStructural]
  obtain ⟨text, n, rfl, hn, htext⟩ := hheader.ending
  generalize htokens : text ++ [n] ++ tail = tokens at h
  cases h with
  | @conditional _ _ _ _ ts _ vs hw he hbody hr =>
    obtain ⟨n', i, region, rfl, hn', hregion⟩ := hbody.region
    -- both ends of the line are the first newline
    have htext' : ∀ t ∈ w :: ts, t.kind.isStructural = false :=
      List.forall_mem_cons.2 ⟨by rw [hw]; rfl, he.not_isStructural trivial⟩
    have htail : n :: tail = n' :: (region ++ vs) := by
      rw [← hcut tail hn htext, ← hcut (region ++ vs) hn' htext']
      exact congrArg _ (by simpa using htokens)
    exact ⟨i, region, vs, (List.cons.inj htail).2, hregion, hr⟩

/-- A line with two names where the condition of a conditional should be. -/
theorem malformed_condition {w a b n : Token} (hw : w.kind = .ifWord) (ha : a.kind = .identifier)
    (hb : b.kind = .identifier) (hn : n.kind = .newline) : Malformed [w, a, b, n] := by
  refine ⟨⟨w, [a, b], n, rfl, ?_, ?_, hn⟩, ?_, ?_⟩
  · simp [hw, Kind.isStructural]
  · simp [ha, hb, Kind.isStructural, Kind.startsStatement]
  · intro before t l after h _ hl
    have hmem : l ∈ [w, a, b, n] := by simp [h]
    simp only [List.mem_cons, List.not_mem_nil, or_false] at hmem
    rcases hmem with rfl | rfl | rfl | rfl <;> simp_all
  · refine ⟨b.diagnose (.grammar (.expected "the end of the line")), [], [b, n], ?_, by simp⟩
    have hlast := endToken_kind [w, a, b, n]
    have hname : Derives (.expression .disjunction (.variable a)) [a] :=
      .tighter (.tighter (.tighter (.tighter (.tighter (.tighter (.tighter (.variable ha)))))))
    have hcond := (hname.read hlast).before hlast hb rfl 5 [n] (by simp)
    have hblock : block (statement 4) 4 (endToken [w, a, b, n]) [b, n] =
        ⟨.error (b.diagnose (.grammar (.expected "the end of the line"))), [], [b, n]⟩ :=
      bind_of_error (endOfLine_of_ne (by simp [hb]) [n])
    have hconditional : conditional (expression 5) (statement 4) 4 (endToken [w, a, b, n])
        [w, a, b, n] =
        ⟨.error (b.diagnose (.grammar (.expected "the end of the line"))), [], [b, n]⟩ := by
      rw [conditional, advance_bind]
      refine (bind_of_ok hcond).trans ?_
      rw [bind_of_error hblock]
      rfl
    show statement 5 (endToken [w, a, b, n]) [w, a, b, n] = _
    rw [statement, statementOf, peek_bind, List.headD_cons, hw]
    exact hconditional

/-! ### Two diagnostics -/

/-- Statements around what is given up before further branches are read, with a diagnostic for each
of the two. -/
theorem Skips.readAround_alternatives (hlast : last.kind = .endOfFile)
    {first second : List Stmt} {r : Else} {p q tokens vs : List Token} (h : Skips last d tokens)
    (hp : Derives (.statements first) p) (hvs : Derives (.alternatives r) vs) (hr : r ≠ .nothing)
    (hq : Derives (.statements second) q) :
    ∃ o us ws, vs = o :: us ∧ o.kind = .otherwiseWord ∧ Derives (.statements (resumed r)) ws ∧
      (Phrase.statements (first ++ (resumed r ++ second))).ReadAround last
        [d, o.diagnose (.grammar .expectedExpression)] (p ++ (tokens ++ vs) ++ q) [] [] := by
  obtain ⟨o, us, ws, rfl, ho, hws, hbranches⟩ := hvs.records_alternatives hlast hr hq
  refine ⟨o, us, ws, rfl, ho, hws, fun n bound rest hlen hbound hrest => ?_⟩
  have hassoc : [] ++ (p ++ (tokens ++ o :: us) ++ q ++ ([] ++ rest)) =
      p ++ (tokens ++ (o :: us ++ (q ++ rest))) := by simp
  rw [hassoc] at hlen hbound ⊢
  obtain ⟨t, ts, htokens, -, -, hotherwise⟩ := h.opens
  refine hp.records_append hlast (by simpa [htokens] using hotherwise) (fun bound hbound => ?_)
    bound hlen hbound
  have hlen' : (tokens ++ (o :: us ++ (q ++ rest))).length < n := by
    rw [List.length_append] at hlen
    omega
  refine h.records_append (by simp [ho]) (fun bound hbound => ?_) bound hlen' hbound
  exact hbranches n bound rest (by rw [List.length_append] at hlen'; omega) hbound hrest

/-- A malformed header cascades. Where a malformed line stands for the header line of a conditional
with further branches, between statements, parsing records two diagnostics, however many branches
there are: one pinned to the line, and one to the `otherwise` after the block of the header. The
statements around the conditional are kept, and those read from the branches stand between them. So
it is at the top of a program, and in the body of any block that keeps a statement. -/
theorem failed_header_cascades {first second body : List Stmt} {cond : Expr} {r : Else}
    {p q header tail line : List Token} {w e : Token} (hp : Derives (.statements first) p)
    (hq : Derives (.statements second) q) (he : e.kind = .endOfFile)
    (hif : Derives (.statement (.branch w cond body r)) (header ++ tail)) (hheader : IsLine header)
    (hr : r ≠ .nothing) (hline : Malformed line) :
    ∃ t ∈ line, ∃ g i region o branches, tail = region ++ o :: branches ∧ Region i region ∧
      o.kind = .otherwiseWord ∧
      parse (p ++ (line ++ tail) ++ q ++ [e]) = ⟨first ++ (resumed r ++ second),
        [t.diagnose (.grammar g), o.diagnose (.grammar .expectedExpression)]⟩ ∧
      ∀ stmts before after,
        Inside (first ++ (resumed r ++ second)) (.statements stmts) before after →
        parse (before ++ (p ++ (line ++ tail) ++ q) ++ after ++ [e]) = ⟨stmts,
          [t.diagnose (.grammar g), o.diagnose (.grammar .expectedExpression)]⟩ := by
  obtain ⟨i, region, vs, rfl, hregion, hvs⟩ := hif.behind_header hheader
  obtain ⟨t, ht, g, hskips⟩ := hline.skips (.inr ⟨i, hregion⟩)
  have hends : ∀ u ∈ p ++ (line ++ region ++ vs) ++ q, u.kind ≠ .endOfFile := by
    have hp := hp.kind_ne_end nofun
    have hq := hq.kind_ne_end nofun
    have hvs := hvs.kind_ne_end nofun
    have hgiven := (hskips e).inside
    simp only [List.forall_mem_append] at hgiven ⊢
    exact ⟨⟨hp, hgiven, hvs⟩, hq⟩
  obtain ⟨o, branches, ws, rfl, ho, hws, hread⟩ :=
    (hskips e).readAround_alternatives he hp hvs hr hq
  have hkept := hp.append_statements (hws.append_statements hq)
  have hparse : ∀ stmts before after,
      Inside (first ++ (resumed r ++ second)) (.statements stmts) before after →
      parse (before ++ (p ++ (line ++ (region ++ o :: branches)) ++ q) ++ after ++ [e]) = ⟨stmts,
        [t.diagnose (.grammar g), o.diagnose (.grammar .expectedExpression)]⟩ := by
    intro stmts before after hinside
    rw [← List.append_assoc line]
    exact hinside.parse he hkept hends hread
  refine ⟨t, ht, g, i, region, o, branches, rfl, hregion, ho, ?_, hparse⟩
  simpa using hparse _ [] [] .whole

/-- A failed header in the body of a conditional, with an `otherwise if` after its own body. -/
theorem failed_header_cascades_nested :
    let token (kind : Kind) : Token :=
      { kind := kind, lexeme := "", line := 1, span := Span.empty 0 }
    let giveBack := [Kind.returnWord, .newline].map token
    let header := [token .ifWord, token .trueWord, token .newline]
    let line := [token .ifWord, token .identifier, token .identifier, token .newline]
    let body := [Kind.indent, .returnWord, .newline, .dedent].map token
    let tail := body ++ token .otherwiseWord :: (header ++ body)
    let before := header ++ [token .indent]
    let after := [token .dedent]
    let stmt := Stmt.returnEmpty (token .returnWord)
    let branch (body : List Stmt) (r : Else) :=
      Stmt.branch (token .ifWord) (.constant (.bool true)) body r
    let further := Else.branch (token .ifWord) (.constant (.bool true)) [stmt] .nothing
    let stmts := [branch [stmt, branch [stmt] .nothing, stmt] .nothing]
    Derives (.statement (branch [stmt] further)) (header ++ tail) ∧
      Inside [stmt, branch [stmt] .nothing, stmt] (.statements stmts) before after ∧
      ∃ t ∈ line, ∃ g i region o branches, tail = region ++ o :: branches ∧ Region i region ∧
        o.kind = .otherwiseWord ∧
        parse (before ++ (giveBack ++ (line ++ tail) ++ giveBack) ++ after ++
          [token .endOfFile]) = ⟨stmts,
            [t.diagnose (.grammar g), o.diagnose (.grammar .expectedExpression)]⟩ := by
  intro token giveBack header line body tail before after stmt branch further stmts
  have hgiveBack : Derives (.statements [stmt]) giveBack :=
    .moreStatements (.returnEmpty rfl rfl) .noStatements
  have hbody : Derives (.block [stmt]) (token .newline :: body) :=
    .block rfl rfl hgiveBack (by simp) rfl
  have hcond : Derives (.expression .disjunction (.constant (.bool true))) [token .trueWord] :=
    .tighter (.tighter (.tighter (.tighter (.tighter (.tighter (.tighter
      (.constant (.true rfl))))))))
  have hfurther := Derives.otherwiseIf (w := token .otherwiseWord) (m := token .ifWord) rfl rfl
    hcond hbody .nothing
  have hif := Derives.conditional (w := token .ifWord) rfl hcond hbody hfurther
  have hheader : IsLine header :=
    ⟨[token .ifWord, token .trueWord], token .newline, rfl, rfl, by decide⟩
  have hinside : Inside [stmt, branch [stmt] .nothing, stmt] (.statements stmts) before after :=
    .among .noStatements (.conditional rfl hcond (.block rfl rfl .whole (by simp) rfl) .nothing)
      .noStatements
  have hcascades := @failed_header_cascades [stmt] [stmt] [stmt] (.constant (.bool true)) further
    giveBack giveBack header tail line (token .ifWord) (token .endOfFile) hgiveBack hgiveBack rfl
    hif hheader nofun (malformed_condition rfl rfl rfl rfl)
  obtain ⟨t, ht, g, i, region, o, branches, htail, hregion, ho, -, hparse⟩ := hcascades
  exact ⟨hif, hinside, t, ht, g, i, region, o, branches, htail, hregion, ho, hparse _ _ _ hinside⟩

/-- A failed header between two statements, with an `otherwise` after its body: one diagnostic at the
header and one at the `otherwise`. -/
theorem failed_header_reported_twice :
    let token (kind : Kind) : Token :=
      { kind := kind, lexeme := "", line := 1, span := Span.empty 0 }
    let giveBack := [Kind.returnWord, .newline].map token
    let header := [token .ifWord, token .trueWord, token .newline]
    let line := [token .ifWord, token .identifier, token .identifier, token .newline]
    let body := [Kind.indent, .returnWord, .newline, .dedent].map token
    let tail := body ++ token .otherwiseWord :: token .newline :: body
    let stmt := Stmt.returnEmpty (token .returnWord)
    Derives (.statement (.branch (token .ifWord) (.constant (.bool true)) [stmt] (.block [stmt])))
        (header ++ tail) ∧
      IsLine header ∧ Malformed line ∧
      parse (giveBack ++ (line ++ tail) ++ giveBack ++ [token .endOfFile]) = ⟨[stmt, stmt],
        [(token .identifier).diagnose (.grammar (.expected "the end of the line")),
          (token .otherwiseWord).diagnose (.grammar .expectedExpression)]⟩ := by
  intro token giveBack header line body tail stmt
  have hbody : Derives (.block [stmt]) (token .newline :: body) :=
    .block rfl rfl (.moreStatements (.returnEmpty rfl rfl) .noStatements) (by simp) rfl
  have hcond : Derives (.expression .disjunction (.constant (.bool true))) [token .trueWord] :=
    .tighter (.tighter (.tighter (.tighter (.tighter (.tighter (.tighter
      (.constant (.true rfl))))))))
  have hheader : IsLine header :=
    ⟨[token .ifWord, token .trueWord], token .newline, rfl, rfl, by decide⟩
  have hotherwise := Derives.otherwise (w := token .otherwiseWord) rfl hbody
  have hif := Derives.conditional (w := token .ifWord) rfl hcond hbody hotherwise
  exact ⟨hif, hheader, malformed_condition rfl rfl rfl rfl, rfl⟩

end Offside.Grammar
