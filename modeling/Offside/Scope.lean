import Offside.Tree
import Std.Data.HashMap

/-!
# Scopes

Which declaration each name refers to is settled before a program runs. Every block has a scope, and
every function has one that its parameters and its body share; the scope of the program lies around
them all and starts with the names that are already bound. A name refers to the innermost scope that
declares it, and the number of scopes crossed on the way there is its distance.

The analysis goes through a program once. It records the distance of every reference, reads and
targets of `change` alike, and reports names that are not declared, names declared twice in a scope,
variables read in their own initializers, and returns outside a function.

* `Scope.ofExpr`, `Scope.ofStmt`: what an expression and a statement bring to light;
* `Scope.resolve`: the findings about a program;
* `ScopeMap`: the distances, by the span of the reference.
-/

namespace Offside

/-- The names that a scope declares. -/
abbrev Names := List String

/-- The distance of every reference, by its span. -/
abbrev ScopeMap := Std.HashMap Span Nat

namespace ScopeMap

/-- The map with the given distances; of two for one span the later counts. -/
def ofReferences (references : List (Span × Nat)) : ScopeMap :=
  references.foldl (fun m r => m.insert r.1 r.2) ∅

/-- The references of a map in the order of the text. -/
def entries (m : ScopeMap) : List (Span × Nat) :=
  m.toList.mergeSort fun a b => a.1.start ≤ b.1.start

end ScopeMap

namespace Scope

/-- References with their distances, and errors, each in the order found. -/
structure Findings where
  references : List (Span × Nat)
  errors : List Diagnostic
  deriving DecidableEq, Repr

namespace Findings

/-- Nothing found. -/
def none : Findings := ⟨[], []⟩

/-- One error, at a token. -/
def error (t : Token) (e : ScopeError) : Findings := ⟨[], [t.diagnose (.scope e)]⟩

/-- First one, then the other. -/
def append (f g : Findings) : Findings := ⟨f.references ++ g.references, f.errors ++ g.errors⟩

instance : Append Findings := ⟨append⟩

end Findings

/-! ### Names -/

/-- The number of scopes between here and the innermost one, of a list with the innermost first,
that declares a name. -/
def distance? (name : String) : List Names → Option Nat
  | [] => .none
  | scope :: outer => if name ∈ scope then some 0 else (distance? name outer).map (· + 1)

/-- A reference to a name. -/
def access (scopes : List Names) (name : Token) : Findings :=
  match distance? name.lexeme scopes with
  | some distance => ⟨[(name.span, distance)], []⟩
  | .none => Findings.error name (.notDefined name.lexeme)

/-- A scope after the declaration of one more name, which it should not have yet. -/
def declare (scope : Names) (name : Token) : Names × Findings :=
  if name.lexeme ∈ scope then (scope, Findings.error name (.alreadyDefined name.lexeme))
  else (name.lexeme :: scope, Findings.none)

/-- A scope after the declaration of several names in order. -/
def declareAll (scope : Names) : List Token → Names × Findings
  | [] => (scope, Findings.none)
  | name :: names =>
    let (scope, found) := declare scope name
    let (scope, more) := declareAll scope names
    (scope, found ++ more)

/-! ### Expressions -/

mutual

/-- The findings about an expression. If it initializes a variable, that is `pending`. -/
def ofExpr (scopes : List Names) (pending : Option String) : Expr → Findings
  | .constant _ => Findings.none
  | .variable name =>
    (if pending = some name.lexeme then
      Findings.error name (.accessInsideInitializer name.lexeme) else Findings.none) ++
      access scopes name
  | .group inner => ofExpr scopes pending inner
  | .unary _ _ operand => ofExpr scopes pending operand
  | .binary _ _ left right => ofExpr scopes pending left ++ ofExpr scopes pending right
  | .logical _ _ left right => ofExpr scopes pending left ++ ofExpr scopes pending right
  | .call callee args _ => ofExpr scopes pending callee ++ ofExprs scopes pending args

/-- The findings about expressions in order. -/
def ofExprs (scopes : List Names) (pending : Option String) : List Expr → Findings
  | [] => Findings.none
  | e :: es => ofExpr scopes pending e ++ ofExprs scopes pending es

end

/-! ### Statements -/

/-- A return, which has to stand in a function. -/
def checkReturn (inFunction : Bool) (token : Token) : Findings :=
  if inFunction then Findings.none else Findings.error token .returnOutsideFunction

mutual

/-- The current scope after a statement, and the findings about it. The scopes around the current
one are `outer`, innermost first, and no statement adds to them. -/
def ofStmt (inFunction : Bool) (outer : List Names) (scope : Names) : Stmt → Names × Findings
  | .block body => (scope, (ofStmts inFunction (scope :: outer) [] body).2)
  | .change target value =>
    (scope, ofExpr (scope :: outer) .none value ++ access (scope :: outer) target)
  | .create name value =>
    let (scope, found) := declare scope name
    (scope, found ++ ofExpr (scope :: outer) (some name.lexeme) value)
  | .define name params body =>
    let (scope, found) := declare scope name
    let (inner, more) := declareAll [] params
    (scope, found ++ more ++ (ofStmts true (scope :: outer) inner body).2)
  | .expression value => (scope, ofExpr (scope :: outer) .none value)
  | .branch _ cond body rest =>
    (scope,
      ofExpr (scope :: outer) .none cond ++ (ofStmts inFunction (scope :: outer) [] body).2 ++
        ofElse inFunction (scope :: outer) rest)
  | .repeatTimes _ count body =>
    (scope,
      ofExpr (scope :: outer) .none count ++ (ofStmts inFunction (scope :: outer) [] body).2)
  | .repeatWhile _ cond body =>
    (scope,
      ofExpr (scope :: outer) .none cond ++ (ofStmts inFunction (scope :: outer) [] body).2)
  | .returnEmpty token => (scope, checkReturn inFunction token)
  | .returnWith token value =>
    (scope, checkReturn inFunction token ++ ofExpr (scope :: outer) .none value)

/-- The current scope after statements in order, and the findings about them. -/
def ofStmts (inFunction : Bool) (outer : List Names) (scope : Names) :
    List Stmt → Names × Findings
  | [] => (scope, Findings.none)
  | s :: ss =>
    let (scope, found) := ofStmt inFunction outer scope s
    let (scope, more) := ofStmts inFunction outer scope ss
    (scope, found ++ more)

/-- The findings about the further branches of a conditional that stands in the given scopes. -/
def ofElse (inFunction : Bool) (scopes : List Names) : Else → Findings
  | .nothing => Findings.none
  | .block body => (ofStmts inFunction scopes [] body).2
  | .branch _ cond body rest =>
    ofExpr scopes .none cond ++ (ofStmts inFunction scopes [] body).2 ++
      ofElse inFunction scopes rest

end

/-- The findings about a program that starts with the names `globals` bound. -/
def resolve (globals : Names) (program : List Stmt) : Findings :=
  (ofStmts false [] globals program).2

end Scope

end Offside
