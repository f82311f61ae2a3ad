import Offside.Proofs.References

/-!
# Visible declarations

What a name refers to can be said without a scope that is filled in the course of an analysis. Each
place of a program lies in a nest of scopes, and in each of them one statement of the scope's own
list leads to the place. A declaration is visible there if it was given with the scope (a global, or
a parameter of the function whose body this is), if it comes before the leading statement, or if it
is that statement.

The analysis of scopes agrees with this reading for every program, also one with errors: it records
for each reference the number of scopes crossed to the innermost one with a visible declaration, and
it reports what is wrong at each place, in order.

* `Layer`, `Site`: one scope around a place, and a place where a name or a `return` stands;
* `Layer.Shows`, `Site.distance?`: the visible declarations and the distance to one;
* `Site.faults`: what is wrong at a place;
* `Scope.resolve_eq_gather`: the findings of the analysis, read off the places;
* `Scope.resolve_lexical`: the distances in the map and the errors.
-/

namespace Offside

/-! ### What a statement declares -/

namespace Stmt

/-- A statement declares a name in the scope it stands in. -/
def Declares (s : Stmt) (name : String) : Prop := s.declared?.map (·.lexeme) = some name

instance (s : Stmt) (name : String) : Decidable (s.Declares name) :=
  inferInstanceAs (Decidable (_ = _))

/-- The variable that a statement gives its first value. -/
def initialized? : Stmt → Option String
  | .create name _ => some name.lexeme
  | _ => none

/-- Whether a statement defines a function. -/
def isDefine : Stmt → Bool
  | .define _ _ _ => true
  | _ => false

end Stmt

/-! ### Places of a program -/

/-- A scope around a place: the names it is given from the start, the statements of its list before
the one that leads to the place, and that statement. -/
structure Layer where
  given : Names
  before : List Stmt
  leading : Stmt

namespace Layer

/-- The scope holds a name when its leading statement is reached. -/
def Holds (layer : Layer) (name : String) : Prop :=
  name ∈ layer.given ∨ ∃ s ∈ layer.before, s.Declares name

/-- A declaration of the name in this scope is visible at the place. -/
def Shows (layer : Layer) (name : String) : Prop :=
  layer.Holds name ∨ layer.leading.Declares name

instance (layer : Layer) (name : String) : Decidable (layer.Holds name) :=
  inferInstanceAs (Decidable (_ ∨ _))

instance (layer : Layer) (name : String) : Decidable (layer.Shows name) :=
  inferInstanceAs (Decidable (_ ∨ _))

end Layer

/-- What stands at a place. -/
inductive Item
  | read (name : Token)
  /-- The target of a `change`. -/
  | target (name : Token)
  /-- The name of a new variable or of a function. -/
  | declaration (name : Token)
  /-- A parameter after earlier ones. -/
  | parameter (earlier : List Token) (name : Token)
  | exit (token : Token)

/-- A place of a program: the scopes around it, innermost first, and what stands there. -/
structure Site where
  layers : List Layer
  item : Item

namespace Site

/-- The reads of an expression, all in the same scopes. -/
def reads (layers : List Layer) (e : Expr) : List Site :=
  (references e.marks).map fun name => ⟨layers, .read name⟩

/-- The parameters of a function, after earlier ones. -/
def parameters (layers : List Layer) (earlier : List Token) : List Token → List Site
  | [] => []
  | name :: names =>
    ⟨layers, .parameter earlier name⟩ :: parameters layers (earlier ++ [name]) names

mutual

/-- The places of a statement, which is the leading one of the innermost scope. -/
def ofStmt (layers : List Layer) : Stmt → List Site
  | .block body => ofStmts layers [] [] body
  | .change target value => reads layers value ++ [⟨layers, .target target⟩]
  | .create name value => ⟨layers, .declaration name⟩ :: reads layers value
  | .define name params body =>
    ⟨layers, .declaration name⟩ :: parameters layers [] params ++
      ofStmts layers (params.map (·.lexeme)) [] body
  | .expression value => reads layers value
  | .branch _ cond body rest =>
    reads layers cond ++ ofStmts layers [] [] body ++ ofElse layers rest
  | .repeatTimes _ count body => reads layers count ++ ofStmts layers [] [] body
  | .repeatWhile _ cond body => reads layers cond ++ ofStmts layers [] [] body
  | .returnEmpty token => [⟨layers, .exit token⟩]
  | .returnWith token value => ⟨layers, .exit token⟩ :: reads layers value

/-- The places of the statements that come after the ones `before` in a scope with the names
`given`. -/
def ofStmts (outer : List Layer) (given : Names) (before : List Stmt) : List Stmt → List Site
  | [] => []
  | s :: ss => ofStmt (⟨given, before, s⟩ :: outer) s ++ ofStmts outer given (before ++ [s]) ss

/-- The places of the further branches of a conditional. -/
def ofElse (layers : List Layer) : Else → List Site
  | .nothing => []
  | .block body => ofStmts layers [] [] body
  | .branch _ cond body rest =>
    reads layers cond ++ ofStmts layers [] [] body ++ ofElse layers rest

end

/-- The places of a program that starts with the names `globals` bound. -/
def all (globals : Names) (program : List Stmt) : List Site := ofStmts [] globals [] program

/-! ### What a place refers to, and what is wrong there -/

/-- The number of scopes crossed to the innermost one with a visible declaration of a name. -/
def distance? (site : Site) (name : String) : Option Nat :=
  site.layers.findIdx? fun layer => layer.Shows name

/-- The token at a place and the part it plays. -/
def mark (site : Site) : Mark :=
  match site.item with
  | .read name | .target name => (.reference, name)
  | .declaration name | .parameter _ name => (.declaration, name)
  | .exit token => (.word, token)

/-- The name at a place, if it is a reference. -/
def refers? (site : Site) : Option Token :=
  if site.mark.1 = .reference then some site.mark.2 else none

/-- The variable whose initializer the place is in. -/
def initializes? (site : Site) : Option String :=
  site.layers.head?.bind fun layer => layer.leading.initialized?

/-- The innermost scope holds a name before the statement with this place. -/
def Holds (site : Site) (name : String) : Prop := ∃ layer ∈ site.layers.head?, layer.Holds name

instance (site : Site) (name : String) : Decidable (site.Holds name) :=
  inferInstanceAs (Decidable (∃ _ ∈ _, _))

/-- The place is in the body of a function. -/
def InFunction (site : Site) : Prop := ∃ layer ∈ site.layers, layer.leading.isDefine

instance (site : Site) : Decidable site.InFunction := inferInstanceAs (Decidable (∃ _ ∈ _, _))

/-- An error at a token, if something is the case. -/
def faultIf (p : Prop) [Decidable p] (t : Token) (e : ScopeError) : List Diagnostic :=
  if p then [t.diagnose (.scope e)] else []

theorem faultIf_congr {p q : Prop} [Decidable p] [Decidable q] (h : p ↔ q) (t : Token)
    (e : ScopeError) : faultIf p t e = faultIf q t e := by
  simp only [faultIf, h]

theorem faultIf_eq_nil {p : Prop} [Decidable p] {t : Token} {e : ScopeError} :
    faultIf p t e = [] ↔ ¬ p := by
  unfold faultIf
  split <;> simp_all

/-- What is wrong at a place. -/
def faults (site : Site) : List Diagnostic :=
  match site.item with
  | .read name =>
    faultIf (site.initializes? = some name.lexeme) name (.accessInsideInitializer name.lexeme) ++
      faultIf (site.distance? name.lexeme = none) name (.notDefined name.lexeme)
  | .target name => faultIf (site.distance? name.lexeme = none) name (.notDefined name.lexeme)
  | .declaration name => faultIf (site.Holds name.lexeme) name (.alreadyDefined name.lexeme)
  | .parameter earlier name =>
    faultIf (name.lexeme ∈ earlier.map (·.lexeme)) name (.alreadyDefined name.lexeme)
  | .exit token => faultIf (¬ site.InFunction) token .returnOutsideFunction

/-- The span of the name and its distance, if it is a reference to a visible declaration. -/
def located? (site : Site) : Option (Span × Nat) :=
  site.refers?.bind fun name => (site.distance? name.lexeme).map (name.span, ·)

/-- The references and the errors of places in order. -/
def gather (sites : List Site) : Scope.Findings :=
  ⟨sites.filterMap located?, sites.flatMap faults⟩

@[simp] theorem gather_nil : gather [] = Scope.Findings.none := rfl

@[simp] theorem gather_append (as bs : List Site) : gather (as ++ bs) = gather as ++ gather bs := by
  show (⟨_, _⟩ : Scope.Findings) = ⟨_, _⟩
  rw [List.filterMap_append, List.flatMap_append]
  rfl

theorem gather_singleton (a : Site) : gather [a] = ⟨a.located?.toList, a.faults⟩ := by
  show (⟨_, _⟩ : Scope.Findings) = _
  rw [List.flatMap_singleton, List.filterMap_cons]
  cases a.located? <;> rfl

theorem gather_cons (a : Site) (as : List Site) : gather (a :: as) = gather [a] ++ gather as :=
  gather_append [a] as

end Site

namespace Scope

/-! ### Scopes and layers -/

theorem mem_declare {scope : Names} {name : Token} {n : String} :
    n ∈ (declare scope name).1 ↔ n ∈ scope ∨ name.lexeme = n := by
  unfold declare
  split
  · rename_i hmem
    exact ⟨.inl, fun h => h.elim id fun h => h ▸ hmem⟩
  · simp [or_comm, eq_comm]

theorem mem_declareAll {names : List Token} {scope : Names} {n : String} :
    n ∈ (declareAll scope names).1 ↔ n ∈ scope ∨ n ∈ names.map (·.lexeme) := by
  induction names generalizing scope with
  | nil => simp [declareAll]
  | cons name names ih => simp [declareAll_cons, ih, mem_declare, or_assoc, eq_comm]

/-- A statement adds what it declares to the current scope, and nothing else. -/
theorem mem_ofStmt {b : Bool} {outer : List Names} {scope : Names} {s : Stmt} {n : String} :
    n ∈ (ofStmt b outer scope s).1 ↔ n ∈ scope ∨ s.Declares n := by
  cases s with
  | create name value => simpa [ofStmt_create, Stmt.Declares, Stmt.declared?] using mem_declare
  | define name params body =>
    simpa [ofStmt_define, Stmt.Declares, Stmt.declared?] using mem_declare
  | _ => simp [ofStmt, Stmt.Declares, Stmt.declared?]

/-- A scope of the analysis has the names that a layer shows. -/
def Matches (scope : Names) (layer : Layer) : Prop := ∀ n, n ∈ scope ↔ layer.Shows n

theorem distance?_eq_findIdx? {scopes : List Names} {layers : List Layer}
    (h : List.Forall₂ Matches scopes layers) (name : String) :
    distance? name scopes = layers.findIdx? fun layer => layer.Shows name := by
  induction h with
  | nil => rfl
  | cons hmatch _ ih =>
    rw [distance?, List.findIdx?_cons, ih]
    simp only [hmatch name, decide_eq_true_eq]

/-! ### The findings about each kind of place -/

theorem findings_error_if (p : Prop) [Decidable p] (t : Token) (e : ScopeError) :
    (if p then Findings.error t e else Findings.none) = ⟨[], Site.faultIf p t e⟩ := by
  unfold Site.faultIf
  split <;> rfl

theorem access_eq_gather {scopes : List Names} {layers : List Layer}
    (h : List.Forall₂ Matches scopes layers) (name : Token) :
    access scopes name = Site.gather [⟨layers, .target name⟩] := by
  have hdistance : (Site.mk layers (.target name)).distance? name.lexeme =
      distance? name.lexeme scopes := (distance?_eq_findIdx? h name.lexeme).symm
  rw [Site.gather_singleton, access]
  cases hd : distance? name.lexeme scopes <;>
    simp [Site.located?, Site.faults, Site.refers?, Site.mark, Site.faultIf, hdistance, hd,
      Findings.error]

/-- A read is a reference like the target of a `change`, and may also stand in the initializer of
its own variable. -/
theorem gather_read (layers : List Layer) (name : Token) :
    Site.gather [⟨layers, .read name⟩] =
      (if (Site.mk layers (.read name)).initializes? = some name.lexeme then
        Findings.error name (.accessInsideInitializer name.lexeme) else Findings.none) ++
        Site.gather [⟨layers, .target name⟩] := by
  rw [findings_error_if, Site.gather_singleton, Site.gather_singleton]
  rfl

mutual

theorem ofExpr_eq_gather {scopes : List Names} {layers : List Layer} {pending : Option String}
    (h : List.Forall₂ Matches scopes layers)
    (hpending : pending = layers.head?.bind fun layer => layer.leading.initialized?) :
    ∀ e, ofExpr scopes pending e = Site.gather (Site.reads layers e)
  | .constant _ => rfl
  | .variable name => by
    rw [ofExpr, access_eq_gather h, hpending]
    exact (gather_read layers name).symm
  | .group inner => ofExpr_eq_gather h hpending inner
  | .unary _ _ operand => by
    rw [ofExpr, ofExpr_eq_gather h hpending operand]
    simp [Site.reads, Expr.marks, references_cons]
  | .binary _ _ left right => by
    rw [ofExpr, ofExpr_eq_gather h hpending left, ofExpr_eq_gather h hpending right]
    simp [Site.reads, Expr.marks, references_cons]
  | .logical _ _ left right => by
    rw [ofExpr, ofExpr_eq_gather h hpending left, ofExpr_eq_gather h hpending right]
    simp [Site.reads, Expr.marks, references_cons]
  | .call callee args _ => by
    rw [ofExpr, ofExpr_eq_gather h hpending callee, ofExprs_eq_gather h hpending args]
    simp [Site.reads, Expr.marks, references_cons]

theorem ofExprs_eq_gather {scopes : List Names} {layers : List Layer} {pending : Option String}
    (h : List.Forall₂ Matches scopes layers)
    (hpending : pending = layers.head?.bind fun layer => layer.leading.initialized?) :
    ∀ es, ofExprs scopes pending es =
      Site.gather ((references (Expr.allMarks es)).map fun name => ⟨layers, .read name⟩)
  | [] => rfl
  | e :: es => by
    rw [ofExprs, ofExpr_eq_gather h hpending e, ofExprs_eq_gather h hpending es]
    simp [Site.reads, Expr.allMarks]

end

theorem findings_declare (scope : Names) (name : Token) :
    (declare scope name).2 =
      ⟨[], Site.faultIf (name.lexeme ∈ scope) name (.alreadyDefined name.lexeme)⟩ := by
  unfold declare Site.faultIf
  split <;> rfl

theorem declare_eq_gather {scope : Names} {layer : Layer} (h : ∀ n, n ∈ scope ↔ layer.Holds n)
    (outer : List Layer) (name : Token) :
    (declare scope name).2 = Site.gather [⟨layer :: outer, .declaration name⟩] := by
  have hholds : name.lexeme ∈ scope ↔
      (Site.mk (layer :: outer) (.declaration name)).Holds name.lexeme := by simp [Site.Holds, h]
  rw [findings_declare, Site.gather_singleton, Site.faultIf_congr hholds]
  rfl

theorem declareAll_eq_gather {scope : Names} {earlier : List Token}
    (h : ∀ n, n ∈ scope ↔ n ∈ earlier.map (·.lexeme)) (layers : List Layer) (names : List Token) :
    (declareAll scope names).2 = Site.gather (Site.parameters layers earlier names) := by
  induction names generalizing scope earlier with
  | nil => rfl
  | cons name names ih =>
    have hnext : ∀ n, n ∈ (declare scope name).1 ↔ n ∈ (earlier ++ [name]).map (·.lexeme) := by
      intro n
      rw [mem_declare, h n]
      simp [eq_comm]
    rw [declareAll_cons, Site.parameters, Site.gather_cons, Site.gather_singleton, ih hnext,
      findings_declare, Site.faultIf_congr (h name.lexeme)]
    rfl

theorem checkReturn_eq_gather {layers : List Layer} {inFunction : Bool}
    (h : inFunction = layers.any fun layer => layer.leading.isDefine) (token : Token) :
    checkReturn inFunction token = Site.gather [⟨layers, .exit token⟩] := by
  have hin : (Site.mk layers (.exit token)).InFunction ↔ inFunction = true := by
    simp [Site.InFunction, h]
  rw [Site.gather_singleton]
  show _ = (⟨[], Site.faultIf _ _ _⟩ : Findings)
  rw [Site.faultIf_congr (not_congr hin)]
  cases inFunction <;> rfl

/-! ### The findings about a program -/

/-- The state of the analysis at the statement after the ones `before`: the scopes around the current
one show what the layers around do, the current one has what is given and what is declared before,
and a `return` is allowed in a function. -/
structure Reaches (b : Bool) (outer : List Names) (scope : Names) (layers : List Layer)
    (given : Names) (before : List Stmt) : Prop where
  outer : List.Forall₂ Matches outer layers
  scope : ∀ n, n ∈ scope ↔ n ∈ given ∨ ∃ s ∈ before, s.Declares n
  inFunction : b = layers.any fun layer => layer.leading.isDefine

namespace Reaches

variable {b : Bool} {outer : List Names} {scope : Names} {layers : List Layer} {given : Names}
  {before : List Stmt}

/-- The scopes that the expressions of a statement are resolved in. -/
theorem scopes (h : Reaches b outer scope layers given before) (s : Stmt) :
    List.Forall₂ Matches ((ofStmt b outer scope s).1 :: outer) (⟨given, before, s⟩ :: layers) := by
  refine .cons (fun n => ?_) h.outer
  rw [mem_ofStmt, h.scope n]
  rfl

/-- The next statement of the same scope. -/
theorem next (h : Reaches b outer scope layers given before) (s : Stmt) :
    Reaches b outer (ofStmt b outer scope s).1 layers given (before ++ [s]) := by
  refine ⟨h.outer, fun n => ?_, h.inFunction⟩
  rw [mem_ofStmt, h.scope n]
  simp [or_and_right, exists_or, or_assoc]

/-- The first statement of a scope inside a statement. -/
theorem enter (h : Reaches b outer scope layers given before) (s : Stmt) {inner names : Names}
    (hnames : ∀ n, n ∈ inner ↔ n ∈ names) :
    Reaches (s.isDefine || b) ((ofStmt b outer scope s).1 :: outer) inner
      (⟨given, before, s⟩ :: layers) names [] :=
  ⟨h.scopes s, by simp [hnames], by rw [h.inFunction]; rfl⟩

/-- The first statement of a block inside a statement. -/
theorem enterBlock (h : Reaches b outer scope layers given before) (s : Stmt) :
    Reaches (s.isDefine || b) ((ofStmt b outer scope s).1 :: outer) []
      (⟨given, before, s⟩ :: layers) [] [] :=
  h.enter s fun _ => .rfl

end Reaches

mutual

theorem ofStmt_eq_gather {b : Bool} {outer : List Names} {scope given : Names} {before : List Stmt}
    {layers : List Layer} (h : Reaches b outer scope layers given before) :
    ∀ s, (ofStmt b outer scope s).2 = Site.gather (Site.ofStmt (⟨given, before, s⟩ :: layers) s)
  | .block body => ofStmts_eq_gather (h.enterBlock (.block body)) body
  | .change target value => by
    have hscopes := h.scopes (.change target value)
    rw [ofStmt, Site.ofStmt, Site.gather_append, ← access_eq_gather hscopes,
      ← ofExpr_eq_gather hscopes rfl]
    rfl
  | .create name value => by
    have hscopes := h.scopes (.create name value)
    rw [ofStmt_create, Site.ofStmt, Site.gather_cons, ← declare_eq_gather h.scope,
      ← ofExpr_eq_gather hscopes rfl]
    rfl
  | .define name params body => by
    have hparams : ∀ n, n ∈ (declareAll [] params).1 ↔ n ∈ params.map (·.lexeme) := by
      simp [mem_declareAll]
    have hnone : ∀ n, n ∈ ([] : Names) ↔ n ∈ ([] : List Token).map (·.lexeme) := fun _ => .rfl
    have hbody := ofStmts_eq_gather (h.enter (.define name params body) hparams) body
    rw [ofStmt_define, Site.ofStmt, Site.gather_append, Site.gather_cons, ← hbody,
      ← declare_eq_gather h.scope, ← declareAll_eq_gather hnone]
    rfl
  | .expression value => ofExpr_eq_gather (h.scopes (.expression value)) rfl value
  | .branch t cond body further => by
    have hin := h.enterBlock (.branch t cond body further)
    rw [ofStmt, Site.ofStmt, Site.gather_append, Site.gather_append, ← ofExpr_eq_gather hin.outer rfl,
      ← ofStmts_eq_gather hin body, ← ofElse_eq_gather hin rfl further]
    rfl
  | .repeatTimes t count body => by
    have hin := h.enterBlock (.repeatTimes t count body)
    rw [ofStmt, Site.ofStmt, Site.gather_append, ← ofExpr_eq_gather hin.outer rfl,
      ← ofStmts_eq_gather hin body]
    rfl
  | .repeatWhile t cond body => by
    have hin := h.enterBlock (.repeatWhile t cond body)
    rw [ofStmt, Site.ofStmt, Site.gather_append, ← ofExpr_eq_gather hin.outer rfl,
      ← ofStmts_eq_gather hin body]
    rfl
  | .returnEmpty token =>
    checkReturn_eq_gather (h.enterBlock (.returnEmpty token)).inFunction token
  | .returnWith token value => by
    have hin := h.enterBlock (.returnWith token value)
    rw [ofStmt, Site.ofStmt, Site.gather_cons, ← ofExpr_eq_gather hin.outer rfl,
      ← checkReturn_eq_gather hin.inFunction]
    rfl

theorem ofStmts_eq_gather {b : Bool} {outer : List Names} {scope given : Names} {before : List Stmt}
    {layers : List Layer} (h : Reaches b outer scope layers given before) :
    ∀ ss, (ofStmts b outer scope ss).2 = Site.gather (Site.ofStmts layers given before ss)
  | [] => rfl
  | s :: ss => by
    rw [ofStmts_cons, Site.ofStmts, Site.gather_append, ← ofStmt_eq_gather h s,
      ← ofStmts_eq_gather (h.next s) ss]

theorem ofElse_eq_gather {b : Bool} {scopes : List Names} {layers : List Layer}
    (h : Reaches b scopes [] layers [] [])
    (hleading : (layers.head?.bind fun layer => layer.leading.initialized?) = none) :
    ∀ r, ofElse b scopes r = Site.gather (Site.ofElse layers r)
  | .nothing => rfl
  | .block body => ofStmts_eq_gather h body
  | .branch _ cond body further => by
    rw [ofElse, Site.ofElse, Site.gather_append, Site.gather_append,
      ← ofExpr_eq_gather h.outer hleading.symm, ← ofStmts_eq_gather h body,
      ← ofElse_eq_gather h hleading further]

end

/-- The analysis finds at each place of a program what can be read off the place. -/
theorem resolve_eq_gather (globals : Names) (program : List Stmt) :
    resolve globals program = Site.gather (Site.all globals program) :=
  ofStmts_eq_gather ⟨.nil, by simp, rfl⟩ program

end Scope

/-! ### Places and the tokens of the tree -/

/-- Whether a token of a tree is a reference or the name in a declaration. -/
def isName (m : Mark) : Bool := m.1 = .reference ∨ m.1 = .declaration

@[simp] theorem isName_mk (role : Role) (t : Token) :
    isName (role, t) = decide (role = .reference ∨ role = .declaration) := rfl

theorem references_filter_isName (marks : List Mark) :
    references (marks.filter isName) = references marks := by
  unfold references
  rw [List.filter_filter]
  congr 2
  funext m
  cases hm : decide (m.1 = .reference) <;> simp_all [isName]

@[simp] theorem filter_isName_declarations (ts : List Token) :
    (ts.map (Role.declaration, ·)).filter isName = ts.map (Role.declaration, ·) :=
  List.filter_eq_self.2 (by simp)

mutual

theorem Expr.filter_isName_marks :
    ∀ e : Expr, e.marks.filter isName = (references e.marks).map (Role.reference, ·)
  | .constant _ => rfl
  | .variable _ => rfl
  | .group inner => inner.filter_isName_marks
  | .unary _ _ operand => by
    simpa [Expr.marks, references_cons] using operand.filter_isName_marks
  | .binary _ _ left right => by
    simp [Expr.marks, references_cons, left.filter_isName_marks, right.filter_isName_marks]
  | .logical _ _ left right => by
    simp [Expr.marks, references_cons, left.filter_isName_marks, right.filter_isName_marks]
  | .call callee args _ => by
    simp [Expr.marks, references_cons, callee.filter_isName_marks, filter_isName_allMarks args]

theorem Expr.filter_isName_allMarks :
    ∀ es, (Expr.allMarks es).filter isName = (references (Expr.allMarks es)).map (Role.reference, ·)
  | [] => rfl
  | e :: es => by
    simp [Expr.allMarks, e.filter_isName_marks, filter_isName_allMarks es]

end

namespace Site

/-- The names at places. -/
def marks (sites : List Site) : List Mark := (sites.map mark).filter isName

@[simp] theorem marks_nil : marks [] = [] := rfl

@[simp] theorem marks_append (as bs : List Site) : marks (as ++ bs) = marks as ++ marks bs := by
  simp [marks]

theorem marks_cons (a : Site) (as : List Site) :
    marks (a :: as) = (if isName a.mark then [a.mark] else []) ++ marks as := by
  by_cases h : isName a.mark <;> simp [marks, h]

@[simp] theorem marks_reads (layers : List Layer) (e : Expr) :
    marks (reads layers e) = e.marks.filter isName := by
  rw [e.filter_isName_marks, marks, reads, List.map_map]
  exact List.filter_eq_self.2 (by simp [mark])

@[simp] theorem marks_parameters (layers : List Layer) (earlier names : List Token) :
    marks (parameters layers earlier names) = names.map (Role.declaration, ·) := by
  induction names generalizing earlier with
  | nil => rfl
  | cons name names ih => simp [parameters, marks_cons, mark, ih]

mutual

/-- The places of a statement are those of its names, with the target of a `change` last. -/
theorem marks_ofStmt (layers : List Layer) :
    ∀ s, (marks (ofStmt layers s)).Perm (s.marks.filter isName)
  | .block body => marks_ofStmts _ _ _ body
  | .change target value => by
    simp [ofStmt, Stmt.marks, marks_cons, mark]
  | .create name value => by simp [ofStmt, Stmt.marks, marks_cons, mark]
  | .define name params body => by
    simpa [ofStmt, Stmt.marks, marks_cons, mark] using (marks_ofStmts _ _ _ body).append_left _
  | .expression value => by simp [ofStmt, Stmt.marks]
  | .branch t cond body further => by
    simpa [ofStmt, Stmt.marks] using
      ((marks_ofStmts _ _ _ body).append (marks_ofElse _ further)).append_left _
  | .repeatTimes t count body => by
    simpa [ofStmt, Stmt.marks] using (marks_ofStmts _ _ _ body).append_left _
  | .repeatWhile t cond body => by
    simpa [ofStmt, Stmt.marks] using (marks_ofStmts _ _ _ body).append_left _
  | .returnEmpty t => by simp [ofStmt, Stmt.marks, marks_cons, mark]
  | .returnWith t value => by simp [ofStmt, Stmt.marks, marks_cons, mark]

theorem marks_ofStmts (outer : List Layer) (given : Names) (before : List Stmt) :
    ∀ ss, (marks (ofStmts outer given before ss)).Perm ((Stmt.allMarks ss).filter isName)
  | [] => .nil
  | s :: ss => by
    simpa [ofStmts, Stmt.allMarks] using (marks_ofStmt _ s).append (marks_ofStmts _ _ _ ss)

theorem marks_ofElse (layers : List Layer) :
    ∀ r, (marks (ofElse layers r)).Perm (r.marks.filter isName)
  | .nothing => .nil
  | .block body => marks_ofStmts _ _ _ body
  | .branch t cond body further => by
    simpa [ofElse, Else.marks] using
      ((marks_ofStmts _ _ _ body).append (marks_ofElse _ further)).append_left _

end

/-! ### Distances by span -/

theorem filterMap_refers? (sites : List Site) :
    sites.filterMap refers? = references (marks sites) := by
  rw [marks, references_filter_isName]
  induction sites with
  | nil => rfl
  | cons site sites ih =>
    rw [List.map_cons, references_cons, List.filterMap_cons, ih, refers?]
    split <;> simp_all

theorem located?_spans (sites : List Site) :
    ((sites.filterMap located?).map (·.1)).Sublist ((sites.filterMap refers?).map (·.span)) := by
  induction sites with
  | nil => exact .slnil
  | cons site sites ih =>
    rw [List.filterMap_cons, List.filterMap_cons, located?]
    cases site.refers? with
    | none => exact ih
    | some name =>
      cases hd : site.distance? name.lexeme with
      | none => simpa [hd] using ih.cons name.span
      | some d => simpa [hd] using ih

/-- Where no two references have the same span, the distance of each can be looked up, and no distance
is recorded for a reference without a visible declaration. -/
theorem getElem?_located {sites : List Site} (hspans : ((sites.filterMap refers?).map (·.span)).Nodup)
    {site : Site} (hsite : site ∈ sites) {name : Token} (hname : site.refers? = some name) :
    (ScopeMap.ofReferences (sites.filterMap located?))[name.span]? = site.distance? name.lexeme := by
  have hlocated : site.located? = (site.distance? name.lexeme).map (name.span, ·) := by
    rw [located?, hname]
    rfl
  cases hd : site.distance? name.lexeme with
  | some d =>
    refine ScopeMap.getElem?_ofReferences ((located?_spans sites).nodup hspans) ?_
    exact List.mem_filterMap.2 ⟨site, hsite, by rw [hlocated, hd]; rfl⟩
  | none =>
    refine ScopeMap.getElem?_ofReferences_of_notMem fun hmem => ?_
    -- an entry with this span would be of a place before or after, and there the span is another
    obtain ⟨before, after, rfl⟩ := List.append_of_mem hsite
    have hother : name.span ∉ ((before ++ after).filterMap refers?).map (·.span) := by
      have hmiddle := (List.perm_middle.filterMap refers?).map (·.span) |>.nodup_iff.1 hspans
      rw [List.filterMap_cons, hname] at hmiddle
      exact (List.nodup_cons.1 hmiddle).1
    refine hother ((located?_spans _).subset ?_)
    rw [hd] at hlocated
    simpa [List.filterMap_append, List.filterMap_cons, hlocated] using hmem

end Site

/-- An entry for a span is that of a place. -/
theorem Site.exists_of_mem_located {sites : List Site} {span : Span}
    (h : span ∈ ScopeMap.ofReferences (sites.filterMap located?)) :
    ∃ site ∈ sites, ∃ name ∈ site.refers?, name.span = span := by
  obtain ⟨name, hname, rfl⟩ :=
    List.mem_map.1 ((located?_spans _).subset (ScopeMap.mem_of_mem_ofReferences h))
  obtain ⟨site, hsite, hrefers⟩ := List.mem_filterMap.1 hname
  exact ⟨site, hsite, name, hrefers, rfl⟩

/-- The references at the places of a program are those of its tree. -/
theorem Site.perm_spans (globals : Names) (program : List Stmt) :
    (((all globals program).filterMap refers?).map (·.span)).Perm
      ((references (Stmt.allMarks program)).map (·.span)) := by
  have hmarks : (marks (all globals program)).Perm ((Stmt.allMarks program).filter isName) :=
    marks_ofStmts _ _ _ program
  rw [filterMap_refers?, ← references_filter_isName (Stmt.allMarks program)]
  exact ((hmarks.filter _).map _).map _

/-- The analysis of scopes computes lexical scoping. The places cover the names of the program; the
distance on record for each reference is the number of scopes crossed to the innermost visible
declaration, with nothing else on record; and the errors are those of the places in order. -/
theorem Scope.resolve_lexical (globals : Names) (program : List Stmt)
    (hspans : ((references (Stmt.allMarks program)).map (·.span)).Nodup) :
    (Site.marks (Site.all globals program)).Perm ((Stmt.allMarks program).filter isName) ∧
    (∀ site ∈ Site.all globals program, ∀ name ∈ site.refers?,
      (ScopeMap.ofReferences (resolve globals program).references)[name.span]? =
        site.distance? name.lexeme) ∧
    (∀ span ∈ ScopeMap.ofReferences (resolve globals program).references,
      ∃ site ∈ Site.all globals program, ∃ name ∈ site.refers?, name.span = span) ∧
    (resolve globals program).errors = (Site.all globals program).flatMap Site.faults := by
  have hnodup := (Site.perm_spans globals program).nodup_iff.2 hspans
  rw [resolve_eq_gather]
  refine ⟨Site.marks_ofStmts _ _ _ program, fun site hsite name hname => ?_, fun span hspan => ?_, rfl⟩
  · exact Site.getElem?_located hnodup hsite hname
  · exact Site.exists_of_mem_located hspan

/-- A function with a parameter given twice, a variable read in its own initializer, a target two
scopes away and an unknown name, then a second declaration of the function and a stray `return`. -/
theorem Scope.resolve_lexical_nested :
    let token (kind : Kind) (lexeme : String) (start : Nat) : Token :=
      { kind := kind, lexeme := lexeme, line := 1, span := ⟨start, start + 1⟩ }
    let name (lexeme : String) (start : Nat) : Token := token .identifier lexeme start
    let program : List Stmt :=
      [.define (name "f" 0) [name "x" 1, name "x" 2]
        [.create (name "y" 3) (.variable (name "y" 4)),
          .branch (token .ifWord "if" 5) (.variable (name "x" 6))
            [.change (name "f" 7) (.variable (name "z" 8))] .nothing],
        .create (name "f" 9) (.variable (name "display" 10)),
        .returnEmpty (token .returnWord "return" 11)]
    let found := resolve ["display"] program
    ((references (Stmt.allMarks program)).map (·.span)).Nodup ∧
      (ScopeMap.ofReferences found.references)[(name "f" 7).span]? = some 2 ∧
      (ScopeMap.ofReferences found.references)[(name "z" 8).span]? = none ∧
      found.errors =
        [(name "x" 2).diagnose (.scope (.alreadyDefined "x")),
          (name "y" 4).diagnose (.scope (.accessInsideInitializer "y")),
          (name "z" 8).diagnose (.scope (.notDefined "z")),
          (name "f" 9).diagnose (.scope (.alreadyDefined "f")),
          (token .returnWord "return" 11).diagnose (.scope .returnOutsideFunction)] := by
  intro token name program found
  have hspans : ((references (Stmt.allMarks program)).map (·.span)).Nodup := by decide
  obtain ⟨-, hdistance, -, herrors⟩ := resolve_lexical ["display"] program hspans
  refine ⟨hspans, ?_, ?_, herrors.trans (by decide)⟩
  · exact hdistance ((Site.all ["display"] program).get ⟨7, by decide⟩) (List.get_mem _ _) _ rfl
  · exact hdistance ((Site.all ["display"] program).get ⟨6, by decide⟩) (List.get_mem _ _) _ rfl

end Offside
