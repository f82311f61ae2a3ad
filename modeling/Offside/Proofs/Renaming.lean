import Offside.Proofs.Lockstep.Evaluation
import Offside.Proofs.References

/-!
# Renaming variables

A renaming gives every declaration of a variable a name of its own choice, and every reference the
name of the declaration it refers to, as the analysis of scopes settles it. Functions keep their
names, since a value shows the name of its function. Tokens are otherwise left as they are, spans
included.

* `Renaming.find?`: the declaration that a name refers to;
* `Renaming.stmts`: the renaming of statements;
* `Renaming.alike_stmts`: statements and their renaming do the same, if both are accepted.
-/

namespace Offside

namespace Renaming

open Scope Lockstep

/-- The names that a scope declares, each with the one it is replaced by. -/
abbrev Pairs := List (String × String)

/-- The names that scopes declare. -/
def old (scopes : List Pairs) : List Names := scopes.map fun scope => scope.map (·.1)

/-- The names that scopes declare once they are renamed. -/
def new (scopes : List Pairs) : List Names := scopes.map fun scope => scope.map (·.2)

/-- The number of scopes between here and the innermost one that declares a name, and the name that
replaces it there. -/
def find? (name : String) : List Pairs → Option Address
  | [] => none
  | scope :: outer =>
    match scope.lookup name with
    | some name' => some (0, name')
    | none => (find? name outer).map fun a => (a.1 + 1, a.2)

/-! ### Renaming -/

/-- A reference to a variable. -/
def reference (scopes : List Pairs) (name : Token) : Token :=
  { name with lexeme := ((find? name.lexeme scopes).map (·.2)).getD name.lexeme }

mutual

/-- An expression that stands in the given scopes. -/
def expr (scopes : List Pairs) : Expr → Expr
  | .constant value => .constant value
  | .variable name => .variable (reference scopes name)
  | .group inner => .group (expr scopes inner)
  | .unary op token operand => .unary op token (expr scopes operand)
  | .binary op token left right => .binary op token (expr scopes left) (expr scopes right)
  | .logical op token left right => .logical op token (expr scopes left) (expr scopes right)
  | .call callee args paren => .call (expr scopes callee) (exprs scopes args) paren

/-- Expressions in order. -/
def exprs (scopes : List Pairs) : List Expr → List Expr
  | [] => []
  | e :: es => expr scopes e :: exprs scopes es

end

section

-- the name that each declaration of a variable gets
variable (choice : Token → String)

/-- A declaration of a variable. -/
def declaration (name : Token) : Token := { name with lexeme := choice name }

/-- A scope after the declaration of variables in order. -/
def declareAll (scope : Pairs) : List Token → Pairs
  | [] => scope
  | name :: names => declareAll ((name.lexeme, choice name) :: scope) names

mutual

/-- The current scope after a statement, and the statement renamed. The scopes around the current
one are `outer`, innermost first. -/
def stmt (outer : List Pairs) (scope : Pairs) : Stmt → Pairs × Stmt
  | .block body => (scope, .block (stmts (scope :: outer) [] body).2)
  | .change target value =>
    (scope, .change (reference (scope :: outer) target) (expr (scope :: outer) value))
  | .create name value =>
    let scope := (name.lexeme, choice name) :: scope
    (scope, .create (declaration choice name) (expr (scope :: outer) value))
  | .define name params body =>
    let scope := (name.lexeme, name.lexeme) :: scope
    let inner := declareAll choice [] params
    (scope,
      .define name (params.map (declaration choice)) (stmts (scope :: outer) inner body).2)
  | .expression value => (scope, .expression (expr (scope :: outer) value))
  | .branch token cond body further =>
    (scope,
      .branch token (expr (scope :: outer) cond) (stmts (scope :: outer) [] body).2
        (rest (scope :: outer) further))
  | .repeatTimes token count body =>
    (scope,
      .repeatTimes token (expr (scope :: outer) count) (stmts (scope :: outer) [] body).2)
  | .repeatWhile token cond body =>
    (scope, .repeatWhile token (expr (scope :: outer) cond) (stmts (scope :: outer) [] body).2)
  | .returnEmpty token => (scope, .returnEmpty token)
  | .returnWith token value => (scope, .returnWith token (expr (scope :: outer) value))

/-- The current scope after statements in order, and the statements renamed. -/
def stmts (outer : List Pairs) (scope : Pairs) : List Stmt → Pairs × List Stmt
  | [] => (scope, [])
  | s :: ss =>
    let (scope, s') := stmt outer scope s
    let (scope, ss') := stmts outer scope ss
    (scope, s' :: ss')

/-- The further branches of a conditional that stands in the given scopes. -/
def rest (scopes : List Pairs) : Else → Else
  | .nothing => .nothing
  | .block body => .block (stmts scopes [] body).2
  | .branch token cond body further =>
    .branch token (expr scopes cond) (stmts scopes [] body).2 (rest scopes further)

end

end

/-! ### Views -/

/-- The links between the variables of scopes and the same variables renamed. -/
def links : List Pairs → List (Address × Address)
  | [] => []
  | scope :: outer =>
    scope.map (fun p => ((0, p.1), (0, p.2))) ++
      (links outer).map fun l => ((l.1.1 + 1, l.1.2), (l.2.1 + 1, l.2.2))

/-- What code in the current scope sees of the variables. -/
def view (outer : List Pairs) (scope : Pairs) : View :=
  ⟨scope.map (·.1), scope.map (·.2), links (scope :: outer)⟩

theorem distance?_old (name : String) (scopes : List Pairs) :
    distance? name (old scopes) = (find? name scopes).map (·.1) := by
  induction scopes with
  | nil => rfl
  | cons scope outer ih =>
    have hmem : name ∈ scope.map (·.1) ↔ (scope.lookup name).isSome := by
      rw [List.lookup_isSome_iff]
      simp
    rw [show old (scope :: outer) = scope.map (·.1) :: old outer from rfl, distance?, find?, ih]
    cases hlookup : scope.lookup name with
    | none => simp [hmem, hlookup, Function.comp_def]
    | some name' => simp [hmem, hlookup]

theorem mem_links {name : String} {a : Address} {scopes : List Pairs}
    (h : find? name scopes = some a) : ((a.1, name), a) ∈ links scopes := by
  induction scopes generalizing a with
  | nil => simp [find?] at h
  | cons scope outer ih =>
    rw [find?] at h
    cases hlookup : scope.lookup name with
    | some name' =>
      rw [hlookup] at h
      obtain rfl : (0, name') = a := by simpa using h
      refine List.mem_append_left _ (List.mem_map.2 ⟨(name, name'), ?_, rfl⟩)
      obtain ⟨before, after, rfl, -⟩ := List.lookup_eq_some_iff.1 hlookup
      simp
    | none =>
      rw [hlookup] at h
      obtain ⟨a', ha', rfl⟩ := Option.map_eq_some_iff.1 h
      exact List.mem_append_right _ (List.mem_map.2 ⟨_, ih ha', rfl⟩)

/-- A view has the links of all variables of scopes, apart from the one that is being initialized. -/
def Sees (V : View) (scopes : List Pairs) (pending : Option String) : Prop :=
  ∀ name a, pending ≠ some name → find? name scopes = some a → ((a.1, name), a) ∈ V.links

theorem sees_view (outer : List Pairs) (scope : Pairs) :
    Sees (view outer scope) (scope :: outer) none :=
  fun _ _ _ h => mem_links h

/-- An initializer sees what was there before its variable. -/
theorem sees_initializer (outer : List Pairs) (scope : Pairs) (n n' : String) :
    Sees (view outer scope) (((n, n') :: scope) :: outer) (some n) := by
  intro name a hne h
  have hname : (name == n) = false := beq_false_of_ne fun heq => hne (by rw [heq])
  have hbefore : find? name (scope :: outer) = some a := by
    rwa [find?, List.lookup_cons, hname] at h
  exact mem_links hbefore

/-! ### Renamed code does the same -/

variable {P : Pairing} {o : Origin} {b : Bool} {V : View}

theorem refers {scopes : List Pairs} {pending : Option String} {name : Token}
    (hsees : Sees V scopes pending) (hpending : pending ≠ some name.lexeme)
    (h : Recorded o.scope (access (old scopes) name)) :
    Refers o o V name (reference scopes name) := by
  obtain ⟨d, hd, hmap⟩ := recorded_access h
  rw [distance?_old] at hd
  obtain ⟨a, ha, rfl⟩ := Option.map_eq_some_iff.1 hd
  refine ⟨a.1, a.1, hmap, hmap, ?_⟩
  have hlexeme : (reference scopes name).lexeme = a.2 := by simp [reference, ha]
  rw [hlexeme]
  exact hsees name.lexeme a hpending ha

mutual

theorem alike_expr (hsite : ∀ t, P.site o.file o.file t t) {scopes : List Pairs}
    {pending : Option String} (hsees : Sees V scopes pending) :
    ∀ e, Recorded o.scope (ofExpr (old scopes) pending e) →
      Alike P o o b V (.expr e) (.expr (expr scopes e)) V
  | .constant value, _ => .constant value
  | .variable name, h => by
    obtain ⟨hpending, haccess⟩ := recorded_append.1 h
    refine .variable (refers hsees ?_ haccess)
    split at hpending
    · exact absurd hpending (not_recorded_error _ _)
    · assumption
  | .group inner, h => .group (alike_expr hsite hsees inner h)
  | .unary op t operand, h => .unary op (hsite t) (alike_expr hsite hsees operand h)
  | .binary op t left right, h =>
    have h := recorded_append.1 h
    .binary op (hsite t) (alike_expr hsite hsees left h.1) (alike_expr hsite hsees right h.2)
  | .logical op t left right, h =>
    have h := recorded_append.1 h
    .logical op (hsite t) (alike_expr hsite hsees left h.1) (alike_expr hsite hsees right h.2)
  | .call callee args t, h =>
    have h := recorded_append.1 h
    .call (hsite t) (alike_expr hsite hsees callee h.1) (alike_exprs hsite hsees args h.2)

theorem alike_exprs (hsite : ∀ t, P.site o.file o.file t t) {scopes : List Pairs}
    {pending : Option String} (hsees : Sees V scopes pending) :
    ∀ es, Recorded o.scope (ofExprs (old scopes) pending es) →
      Alike P o o b V (.exprs es) (.exprs (exprs scopes es)) V
  | [], _ => .noExprs
  | e :: es, h =>
    have h := recorded_append.1 h
    .moreExprs (alike_expr hsite hsees e h.1) (alike_exprs hsite hsees es h.2)

end

section

variable {choice : Token → String} {map : ScopeMap}

/-- Parameters are declared in order, each with its new name. -/
theorem alike_params (hnames : ∀ t, P.names t.lexeme (choice t)) (outer : List Pairs)
    (scope : Pairs) {ps : List Token}
    (hold : Recorded map (Scope.declareAll (scope.map (·.1)) ps).2)
    (hnew : Recorded map (Scope.declareAll (scope.map (·.2)) (ps.map (declaration choice))).2) :
    ParamsAlike P (view outer scope) (ps.map (·.lexeme)) ((ps.map (declaration choice)).map (·.lexeme))
        (view outer (declareAll choice scope ps)) ∧
      (Scope.declareAll (scope.map (·.1)) ps).1 = (declareAll choice scope ps).map (·.1) ∧
      (Scope.declareAll (scope.map (·.2)) (ps.map (declaration choice))).1 =
        (declareAll choice scope ps).map (·.2) := by
  induction ps generalizing scope with
  | nil => exact ⟨.nil _, rfl, rfl⟩
  | cons t ps ih =>
    rw [declareAll_cons] at hold ⊢
    rw [List.map_cons (f := declaration choice), declareAll_cons] at hnew ⊢
    obtain ⟨hold₁, hold₂⟩ := recorded_append.1 hold
    obtain ⟨hnew₁, hnew₂⟩ := recorded_append.1 hnew
    obtain ⟨hmem, hscope⟩ := recorded_declare hold₁
    obtain ⟨hmem', hscope'⟩ := recorded_declare hnew₁
    rw [hscope] at hold₂
    rw [hscope'] at hnew₂
    obtain ⟨hps, hleft, hright⟩ := ih ((t.lexeme, choice t) :: scope) hold₂ hnew₂
    rw [hscope, hscope']
    exact ⟨.cons hmem hmem' (hnames t) hps, hleft, hright⟩

theorem scope_stmt {outer : List Names} (outer' : List Pairs) {scope : Pairs} {s : Stmt}
    (h : Recorded map (ofStmt b outer (scope.map (·.1)) s).2) :
    (ofStmt b outer (scope.map (·.1)) s).1 = (stmt choice outer' scope s).1.map (·.1) := by
  cases s with
  | create name value => exact (recorded_declare (recorded_append.1 h).1).2
  | define name params body =>
    exact (recorded_declare (recorded_append.1 (recorded_append.1 h).1).1).2
  | _ => rfl

theorem scope_stmt_renamed {outer : List Names} {outer' : List Pairs} {scope : Pairs} {s : Stmt}
    (h : Recorded map (ofStmt b outer (scope.map (·.2)) (stmt choice outer' scope s).2).2) :
    (ofStmt b outer (scope.map (·.2)) (stmt choice outer' scope s).2).1 =
      (stmt choice outer' scope s).1.map (·.2) := by
  cases s with
  | create name value => exact (recorded_declare (recorded_append.1 h).1).2
  | define name params body =>
    exact (recorded_declare (recorded_append.1 (recorded_append.1 h).1).1).2
  | _ => rfl

mutual

theorem alike_stmt (hsite : ∀ t, P.site o.file o.file t t)
    (hnames : ∀ t, P.names t.lexeme (choice t)) (hrefl : ∀ n, P.names n n) {b : Bool}
    (outer : List Pairs) (scope : Pairs) : ∀ s,
    Recorded o.scope (ofStmt b (old outer) (scope.map (·.1)) s).2 →
    Recorded o.scope (ofStmt b (new outer) (scope.map (·.2)) (stmt choice outer scope s).2).2 →
    Alike P o o b (view outer scope) (.stmt s) (.stmt (stmt choice outer scope s).2)
      (view outer (stmt choice outer scope s).1)
  | .block body, h, h' => .block (alike_stmts hsite hnames hrefl (scope :: outer) [] body h h')
  | .change target value, h, _ =>
    have h := recorded_append.1 h
    .change (refers (sees_view outer scope) (by simp) h.2)
      (alike_expr hsite (sees_view outer scope) value h.1)
  | .create name value, h, h' => by
    rw [ofStmt_create] at h
    obtain ⟨hname, hvalue⟩ := recorded_append.1 h
    obtain ⟨hmem, hscope⟩ := recorded_declare hname
    rw [hscope] at hvalue
    exact .create hmem (recorded_declare (recorded_append.1 h').1).1 (hnames name)
      (alike_expr hsite (sees_initializer outer scope name.lexeme (choice name)) value hvalue)
  | .define name params body, h, h' => by
    rw [ofStmt_define] at h
    rw [stmt, ofStmt_define] at h'
    obtain ⟨hhead, hbody⟩ := recorded_append.1 h
    obtain ⟨hname, hparams⟩ := recorded_append.1 hhead
    obtain ⟨hhead', hbody'⟩ := recorded_append.1 h'
    obtain ⟨hname', hparams'⟩ := recorded_append.1 hhead'
    obtain ⟨hmem, hscope⟩ := recorded_declare hname
    obtain ⟨hmem', hscope'⟩ := recorded_declare hname'
    obtain ⟨halike, hinner, hinner'⟩ := alike_params hnames
      (((name.lexeme, name.lexeme) :: scope) :: outer) [] hparams hparams'
    have hbody : Recorded o.scope
        (ofStmts true (old (((name.lexeme, name.lexeme) :: scope) :: outer))
          ((declareAll choice [] params).map (·.1)) body).2 := by
      rw [hscope] at hbody
      rw [← hinner]
      exact hbody
    have hbody' : Recorded o.scope
        (ofStmts true (new (((name.lexeme, name.lexeme) :: scope) :: outer))
          ((declareAll choice [] params).map (·.2))
          (stmts choice (((name.lexeme, name.lexeme) :: scope) :: outer)
            (declareAll choice [] params) body).2).2 := by
      rw [hscope'] at hbody'
      rw [← hinner']
      exact hbody'
    exact .define hmem hmem' (hrefl _) rfl halike
      (alike_stmts hsite hnames hrefl _ _ body hbody hbody')
  | .expression value, h, _ =>
    .expression (alike_expr hsite (sees_view outer scope) value h)
  | .branch t cond body further, h, h' =>
    have h := recorded_append.1 h
    have h' := recorded_append.1 h'
    have h₁ := recorded_append.1 h.1
    .branch (hsite t) (alike_expr hsite (sees_view outer scope) cond h₁.1)
      (alike_stmts hsite hnames hrefl (scope :: outer) [] body h₁.2 (recorded_append.1 h'.1).2)
      (alike_rest hsite hnames hrefl outer scope further h.2 h'.2)
  | .repeatTimes t count body, h, h' =>
    have h := recorded_append.1 h
    .repeatTimes (hsite t) (alike_expr hsite (sees_view outer scope) count h.1)
      (alike_stmts hsite hnames hrefl (scope :: outer) [] body h.2 (recorded_append.1 h').2)
  | .repeatWhile t cond body, h, h' =>
    have h := recorded_append.1 h
    .repeatWhile (hsite t) (alike_expr hsite (sees_view outer scope) cond h.1)
      (alike_stmts hsite hnames hrefl (scope :: outer) [] body h.2 (recorded_append.1 h').2)
  | .returnEmpty t, h, _ => by
    obtain rfl := recorded_checkReturn h
    exact .returnEmpty
  | .returnWith t value, h, _ => by
    obtain ⟨hreturn, hvalue⟩ := recorded_append.1 h
    obtain rfl := recorded_checkReturn hreturn
    exact .returnWith (alike_expr hsite (sees_view outer scope) value hvalue)

/-- Statements and their renaming do the same, if both are accepted with the same distances. -/
theorem alike_stmts (hsite : ∀ t, P.site o.file o.file t t)
    (hnames : ∀ t, P.names t.lexeme (choice t)) (hrefl : ∀ n, P.names n n) {b : Bool}
    (outer : List Pairs) (scope : Pairs) : ∀ ss,
    Recorded o.scope (ofStmts b (old outer) (scope.map (·.1)) ss).2 →
    Recorded o.scope (ofStmts b (new outer) (scope.map (·.2)) (stmts choice outer scope ss).2).2 →
    Alike P o o b (view outer scope) (.stmts ss) (.stmts (stmts choice outer scope ss).2)
      (view outer (stmts choice outer scope ss).1)
  | [], _, _ => .noStmts
  | s :: ss, h, h' => by
    obtain ⟨hs, hss⟩ := recorded_append.1 h
    obtain ⟨hs', hss'⟩ := recorded_append.1 h'
    refine .moreStmts (alike_stmt hsite hnames hrefl outer scope s hs hs')
      (alike_stmts hsite hnames hrefl outer _ ss ?_ ?_)
    · rw [← scope_stmt outer hs]
      exact hss
    · rw [← scope_stmt_renamed hs']
      exact hss'

theorem alike_rest (hsite : ∀ t, P.site o.file o.file t t)
    (hnames : ∀ t, P.names t.lexeme (choice t)) (hrefl : ∀ n, P.names n n) {b : Bool}
    (outer : List Pairs) (scope : Pairs) : ∀ r,
    Recorded o.scope (ofElse b (old (scope :: outer)) r) →
    Recorded o.scope (ofElse b (new (scope :: outer)) (rest choice (scope :: outer) r)) →
    Alike P o o b (view outer scope) (.rest r) (.rest (rest choice (scope :: outer) r))
      (view outer scope)
  | .nothing, _, _ => .nothing
  | .block body, h, h' => .otherwise (alike_stmts hsite hnames hrefl (scope :: outer) [] body h h')
  | .branch t cond body further, h, h' =>
    have h := recorded_append.1 h
    have h' := recorded_append.1 h'
    have h₁ := recorded_append.1 h.1
    .otherwiseIf (hsite t) (alike_expr hsite (sees_view outer scope) cond h₁.1)
      (alike_stmts hsite hnames hrefl (scope :: outer) [] body h₁.2 (recorded_append.1 h'.1).2)
      (alike_rest hsite hnames hrefl outer scope further h.2 h'.2)

end

end

end Renaming

end Offside
