import Offside.Proofs.References

/-!
# Tokens carried to other places

Where tokens stand matters to nothing but diagnostics. A transport carries tokens to other places,
keeping all else about them, and carries diagnostics along, so that a diagnostic at a token becomes
the same one where the token is carried.

* `Transport`: places for tokens, ranges of bytes and diagnostics that fit together;
* `Scan.transport`: the tokens and faults of a text that is carried elsewhere;
* `Scope.ofStmts_transport`: the analysis of scopes finds the same in code that is carried elsewhere;
* `ScopeMap.getElem?_ofReferences_map`: distances can be looked up where references are carried.
-/

namespace Offside

/-- Other places for tokens, for what they cover and for diagnostics. -/
structure Transport where
  token : Token → Token
  span : Span → Span
  diagnostic : Diagnostic → Diagnostic
  kind_token : ∀ t, (token t).kind = t.kind
  lexeme_token : ∀ t, (token t).lexeme = t.lexeme
  literal_token : ∀ t, (token t).literal = t.literal
  span_token : ∀ t, (token t).span = span t.span
  diagnose_token : ∀ t cause, (token t).diagnose cause = diagnostic (t.diagnose cause)
  inFile_diagnostic : ∀ d file, (diagnostic d).inFile file = diagnostic (d.inFile file)

variable (T : Transport)

/-- Tokens and faults, carried elsewhere. -/
def Scan.transport (s : Scan) : Scan := ⟨s.tokens.map T.token, s.errors.map T.diagnostic⟩

theorem Scan.transport_append (s s' : Scan) :
    (s ++ s').transport T = s.transport T ++ s'.transport T :=
  congrArg₂ Scan.mk List.map_append List.map_append

namespace Scope

/-- Findings about code that is carried elsewhere. -/
def Findings.transport (f : Findings) : Findings :=
  ⟨f.references.map fun r => (T.span r.1, r.2), f.errors.map T.diagnostic⟩

@[simp] theorem Findings.transport_append (f g : Findings) :
    (f ++ g).transport T = f.transport T ++ g.transport T := by
  show Findings.mk _ _ = Findings.mk _ _
  simp [Findings.transport]

theorem Findings.error_transport (t : Token) (e : ScopeError) :
    Findings.error (T.token t) e = (Findings.error t e).transport T := by
  simp [Findings.error, Findings.transport, T.diagnose_token]

theorem access_transport (scopes : List Names) (name : Token) :
    access scopes (T.token name) = (access scopes name).transport T := by
  unfold access
  rw [T.lexeme_token]
  cases distance? name.lexeme scopes with
  | some d => simp [Findings.transport, T.span_token]
  | none => exact Findings.error_transport T name _

theorem declare_transport (scope : Names) (name : Token) :
    declare scope (T.token name) =
      ((declare scope name).1, (declare scope name).2.transport T) := by
  unfold declare
  rw [T.lexeme_token]
  split
  · rw [Findings.error_transport]
  · rfl

theorem declareAll_transport (scope : Names) (names : List Token) :
    declareAll scope (names.map T.token) =
      ((declareAll scope names).1, (declareAll scope names).2.transport T) := by
  induction names generalizing scope with
  | nil => rfl
  | cons name names ih =>
    rw [List.map_cons, declareAll_cons, declareAll_cons, declare_transport, ih,
      Findings.transport_append]

theorem checkReturn_transport (b : Bool) (t : Token) :
    checkReturn b (T.token t) = (checkReturn b t).transport T := by
  unfold checkReturn
  split
  · rfl
  · exact Findings.error_transport T t _

mutual

theorem ofExpr_transport (scopes : List Names) (pending : Option String) :
    ∀ e : Expr, ofExpr scopes pending (e.mapTokens T.token) =
      (ofExpr scopes pending e).transport T
  | .constant _ => rfl
  | .variable name => by
    rw [Expr.mapTokens, ofExpr, ofExpr, access_transport, Findings.transport_append,
      T.lexeme_token]
    split
    · rw [Findings.error_transport]
    · rfl
  | .group inner => ofExpr_transport scopes pending inner
  | .unary _ _ operand => ofExpr_transport scopes pending operand
  | .binary _ _ left right => by
    rw [Expr.mapTokens, ofExpr, ofExpr, ofExpr_transport scopes pending left,
      ofExpr_transport scopes pending right, Findings.transport_append]
  | .logical _ _ left right => by
    rw [Expr.mapTokens, ofExpr, ofExpr, ofExpr_transport scopes pending left,
      ofExpr_transport scopes pending right, Findings.transport_append]
  | .call callee args _ => by
    rw [Expr.mapTokens, ofExpr, ofExpr, ofExpr_transport scopes pending callee,
      ofExprs_transport scopes pending args, Findings.transport_append]

theorem ofExprs_transport (scopes : List Names) (pending : Option String) :
    ∀ es : List Expr, ofExprs scopes pending (Expr.mapAllTokens T.token es) =
      (ofExprs scopes pending es).transport T
  | [] => rfl
  | e :: es => by
    rw [Expr.mapAllTokens, ofExprs, ofExprs, ofExpr_transport scopes pending e,
      ofExprs_transport scopes pending es, Findings.transport_append]

end

mutual

theorem ofStmt_transport (b : Bool) (outer : List Names) (scope : Names) :
    ∀ s : Stmt, ofStmt b outer scope (s.mapTokens T.token) =
      ((ofStmt b outer scope s).1, (ofStmt b outer scope s).2.transport T)
  | .block body => by
    rw [Stmt.mapTokens, ofStmt, ofStmt, ofStmts_transport]
  | .change target value => by
    rw [Stmt.mapTokens, ofStmt, ofStmt, ofExpr_transport, access_transport,
      Findings.transport_append]
  | .create name value => by
    rw [Stmt.mapTokens, ofStmt_create, ofStmt_create, declare_transport, ofExpr_transport,
      Findings.transport_append, T.lexeme_token]
  | .define name params body => by
    rw [Stmt.mapTokens, ofStmt_define, ofStmt_define, declare_transport, declareAll_transport,
      ofStmts_transport, Findings.transport_append, Findings.transport_append]
  | .expression value => by
    rw [Stmt.mapTokens, ofStmt, ofStmt, ofExpr_transport]
  | .branch _ cond body further => by
    rw [Stmt.mapTokens, ofStmt, ofStmt, ofExpr_transport, ofStmts_transport,
      ofElse_transport _ _ further, Findings.transport_append, Findings.transport_append]
  | .repeatTimes _ count body => by
    rw [Stmt.mapTokens, ofStmt, ofStmt, ofExpr_transport, ofStmts_transport,
      Findings.transport_append]
  | .repeatWhile _ cond body => by
    rw [Stmt.mapTokens, ofStmt, ofStmt, ofExpr_transport, ofStmts_transport,
      Findings.transport_append]
  | .returnEmpty token => by
    rw [Stmt.mapTokens, ofStmt, ofStmt, checkReturn_transport]
  | .returnWith token value => by
    rw [Stmt.mapTokens, ofStmt, ofStmt, checkReturn_transport, ofExpr_transport,
      Findings.transport_append]

/-- The analysis of scopes finds the same in code that is carried elsewhere. -/
theorem ofStmts_transport (b : Bool) (outer : List Names) (scope : Names) :
    ∀ ss : List Stmt, ofStmts b outer scope (Stmt.mapAllTokens T.token ss) =
      ((ofStmts b outer scope ss).1, (ofStmts b outer scope ss).2.transport T)
  | [] => rfl
  | s :: ss => by
    rw [Stmt.mapAllTokens, ofStmts_cons, ofStmts_cons, ofStmt_transport b outer scope s,
      ofStmts_transport b outer _ ss, Findings.transport_append]

theorem ofElse_transport (b : Bool) (scopes : List Names) :
    ∀ r : Else, ofElse b scopes (r.mapTokens T.token) = (ofElse b scopes r).transport T
  | .nothing => rfl
  | .block body => by
    rw [Else.mapTokens, ofElse, ofElse, ofStmts_transport b scopes [] body]
  | .branch _ cond body further => by
    rw [Else.mapTokens, ofElse, ofElse, ofExpr_transport, ofStmts_transport b scopes [] body,
      ofElse_transport b scopes further, Findings.transport_append, Findings.transport_append]

end

theorem resolve_transport (globals : Names) (ss : List Stmt) :
    resolve globals (Stmt.mapAllTokens T.token ss) = (resolve globals ss).transport T :=
  congrArg Prod.snd (ofStmts_transport T false [] globals ss)

end Scope

/-- References that are carried apart have the distances they had. -/
theorem ScopeMap.getElem?_ofReferences_map {f : Span → Span} (hf : Function.Injective f)
    (references : List (Span × Nat)) (span : Span) :
    (ofReferences (references.map fun r => (f r.1, r.2)))[f span]? =
      (ofReferences references)[span]? := by
  suffices h : ∀ m m' : ScopeMap, (∀ s, m'[f s]? = m[s]?) →
      ((references.map fun r => (f r.1, r.2)).foldl (fun m r => m.insert r.1 r.2) m')[f span]? =
        (references.foldl (fun m r => m.insert r.1 r.2) m)[span]? from h ∅ ∅ fun s => by simp
  induction references with
  | nil => exact fun m m' h => h span
  | cons r references ih =>
    intro m m' h
    refine ih _ _ fun s => ?_
    rw [Std.HashMap.getElem?_insert, Std.HashMap.getElem?_insert, h s]
    by_cases hs : r.1 = s
    · simp [hs]
    · simp [hs, hf.ne hs]

end Offside
