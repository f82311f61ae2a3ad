import Mathlib.Data.Prod.Lex
import Mathlib.Logic.Relation
import Offside.Proofs.Frames

/-!
# The points of a run

Running code is split into parts, these into parts of their own, and so on down to constants and
names. A point of a run is a part about to run: what is to be evaluated, in which frame, on which
machine, and which functions are in the middle of a call. A part that comes after others starts on
the machine that they left behind.

* `Activity`, `Point`, `Point.result`: what runs at a point, and how that ends;
* `Starts`, `Reaches`: the parts of what runs at a point, and the parts of these;
* `Starts.induction`: what holds of a point if it holds of the parts holds of every point;
-/

namespace Offside

/-- How a computation ends, of whose value only some values are of interest. -/
def Result.yield {α : Type} (values : α → List Value) : Result α → Result (List Value)
  | .done a m => .done (values a) m
  | .fault d m => .fault d m
  | .exhausted => .exhausted

/-- The value on its way out of a statement, if there is one. -/
def Flow.values : Flow → List Value
  | .normal => []
  | .returned v => [v]

namespace Eval

/-! ### Points -/

/-- What can run. -/
inductive Activity
  | expr (e : Expr)
  /-- Expressions in order. -/
  | exprs (es : List Expr)
  /-- A call, its arguments evaluated. -/
  | call (callee : Value) (args : List Value) (paren : Token)
  | stmt (s : Stmt)
  /-- Statements in order, up to a return. -/
  | stmts (ss : List Stmt)
  | block (body : List Stmt)
  /-- The branches of a conditional that are not ruled out yet. -/
  | branches (rest : Else)
  /-- The rounds of a loop with a count that are left, so many at most. -/
  | times (count done rounds : Nat) (body : List Stmt)
  /-- The rounds of a loop with a condition that are left, so many at most. -/
  | loop (token : Token) (cond : Expr) (body : List Stmt) (rounds : Nat)
  /-- The statements of a program that are left. -/
  | program (ss : List Stmt)

/-- A part of a run that is about to run. -/
structure Point where
  fuel : Nat
  frame : Nat
  activity : Activity
  /-- The functions whose bodies are running, the innermost first. -/
  calls : List Closure
  machine : Machine

/-- How what runs at a point ends, with the values that it yields. -/
def Point.result (p : Point) : Result (List Value) :=
  match p.activity with
  | .expr e => (expr p.fuel p.frame e p.machine).yield fun v => [v]
  | .exprs es => (all (expr p.fuel p.frame) es p.machine).yield id
  | .call callee args paren =>
    (call (stmt p.fuel) callee args paren p.machine).yield fun v => [v]
  | .stmt s => (stmt p.fuel p.frame s p.machine).yield Flow.values
  | .stmts ss => (sequence (stmt p.fuel p.frame) ss p.machine).yield Flow.values
  | .block body => (block (stmt p.fuel) p.frame body p.machine).yield Flow.values
  | .branches rest =>
    (branches (expr p.fuel p.frame) (block (stmt p.fuel) p.frame) rest p.machine).yield Flow.values
  | .times count done rounds body =>
    (timesLoop (block (stmt p.fuel) p.frame body) count rounds done p.machine).yield Flow.values
  | .loop token cond body rounds =>
    (whileLoop (condition (expr p.fuel p.frame) token cond) (block (stmt p.fuel) p.frame body)
      rounds p.machine).yield Flow.values
  | .program ss => (program p.fuel ss p.machine).yield fun _ => []

end Eval

/-! ### Parts -/

/-- The expression that the evaluation of an expression starts with. -/
def Expr.first? : Expr → Option Expr
  | .group e | .unary _ _ e | .binary _ _ e _ | .logical _ _ e _ | .call e _ _ => some e
  | .constant _ | .variable _ => none

/-- The expression that the execution of a statement starts with, if it is no condition. -/
def Stmt.first? : Stmt → Option Expr
  | .change _ e | .create _ e | .expression e | .repeatTimes _ e _ | .returnWith _ e => some e
  | .block _ | .define _ _ _ | .branch _ _ _ _ | .repeatWhile _ _ _ | .returnEmpty _ => none

/-- The number of branches that an `if` can still go on to. -/
def Else.length : Else → Nat
  | .nothing => 0
  | .block _ => 1
  | .branch _ _ _ rest => rest.length + 1

namespace Eval

/-- What runs at the first point starts, as one of its parts, what runs at the second. -/
inductive Starts : Point → Point → Prop
  | first {fuel frame : Nat} {e first : Expr} {calls : List Closure} {m : Machine} :
    e.first? = some first →
    Starts ⟨fuel + 1, frame, .expr e, calls, m⟩ ⟨fuel, frame, .expr first, calls, m⟩
  | right {fuel frame : Nat} {op : BinaryOp} {token : Token} {left right : Expr}
    {calls : List Closure} {m m₁ : Machine} {a : Value} :
    expr fuel frame left m = .done a m₁ →
    Starts ⟨fuel + 1, frame, .expr (.binary op token left right), calls, m⟩
      ⟨fuel, frame, .expr right, calls, m₁⟩
  | unsettled {fuel frame : Nat} {op : LogicalOp} {token : Token} {left right : Expr}
    {calls : List Closure} {m m₁ : Machine} {a : Bool} :
    expr fuel frame left m = .done (.bool a) m₁ → op.settledBy a = false →
    Starts ⟨fuel + 1, frame, .expr (.logical op token left right), calls, m⟩
      ⟨fuel, frame, .expr right, calls, m₁⟩
  | args {fuel frame : Nat} {callee : Expr} {args : List Expr} {paren : Token}
    {calls : List Closure} {m m₁ : Machine} {f : Value} :
    expr fuel frame callee m = .done f m₁ →
    Starts ⟨fuel + 1, frame, .expr (.call callee args paren), calls, m⟩
      ⟨fuel, frame, .exprs args, calls, m₁⟩
  | call {fuel frame : Nat} {callee : Expr} {args : List Expr} {paren : Token}
    {calls : List Closure} {m m₁ m₂ : Machine} {f : Value} {values : List Value} :
    expr fuel frame callee m = .done f m₁ → all (expr fuel frame) args m₁ = .done values m₂ →
    Starts ⟨fuel + 1, frame, .expr (.call callee args paren), calls, m⟩
      ⟨fuel, frame, .call f values paren, calls, m₂⟩
  | firstExpr {fuel frame : Nat} {e : Expr} {es : List Expr} {calls : List Closure} {m : Machine} :
    Starts ⟨fuel, frame, .exprs (e :: es), calls, m⟩ ⟨fuel, frame, .expr e, calls, m⟩
  | moreExprs {fuel frame : Nat} {e : Expr} {es : List Expr} {calls : List Closure}
    {m m₁ : Machine} {v : Value} :
    expr fuel frame e m = .done v m₁ →
    Starts ⟨fuel, frame, .exprs (e :: es), calls, m⟩ ⟨fuel, frame, .exprs es, calls, m₁⟩
  /-- The body of a function, in a frame that hangs off the one it was defined in, with the scope
  and the file it was defined with. -/
  | body {fuel frame : Nat} {f : Closure} {args : List Value} {paren : Token}
    {calls : List Closure} {m : Machine} :
    f.params.length = args.length → m.context.depth < maxCallDepth →
    Starts ⟨fuel, frame, .call (.function f) args paren, calls, m⟩
      ⟨fuel, m.store.frames.size, .stmts f.body, f :: calls,
        { m with
          store := (m.store.alloc f.frame (Bindings.insertAll [] f.params args)).2
          context := ⟨f.scope, f.file, m.context.depth + 1⟩ }⟩
  | value {fuel frame : Nat} {s : Stmt} {e : Expr} {calls : List Closure} {m : Machine} :
    s.first? = some e →
    Starts ⟨fuel + 1, frame, .stmt s, calls, m⟩ ⟨fuel, frame, .expr e, calls, m⟩
  | block {fuel frame : Nat} {body : List Stmt} {calls : List Closure} {m : Machine} :
    Starts ⟨fuel + 1, frame, .stmt (.block body), calls, m⟩ ⟨fuel, frame, .block body, calls, m⟩
  | branch {fuel frame : Nat} {token : Token} {cond : Expr} {body : List Stmt} {rest : Else}
    {calls : List Closure} {m : Machine} :
    Starts ⟨fuel + 1, frame, .stmt (.branch token cond body rest), calls, m⟩
      ⟨fuel, frame, .branches (.branch token cond body rest), calls, m⟩
  | times {fuel frame : Nat} {token : Token} {e : Expr} {body : List Stmt} {calls : List Closure}
    {m m₁ : Machine} {v : Value} {count : Nat} :
    expr fuel frame e m = .done v m₁ → repetitions token v m₁ = .done count m₁ →
    Starts ⟨fuel + 1, frame, .stmt (.repeatTimes token e body), calls, m⟩
      ⟨fuel, frame, .times count 0 fuel body, calls, m₁⟩
  | loop {fuel frame : Nat} {token : Token} {cond : Expr} {body : List Stmt}
    {calls : List Closure} {m : Machine} :
    Starts ⟨fuel + 1, frame, .stmt (.repeatWhile token cond body), calls, m⟩
      ⟨fuel, frame, .loop token cond body fuel, calls, m⟩
  | firstStmt {fuel frame : Nat} {s : Stmt} {ss : List Stmt} {calls : List Closure} {m : Machine} :
    Starts ⟨fuel, frame, .stmts (s :: ss), calls, m⟩ ⟨fuel, frame, .stmt s, calls, m⟩
  | moreStmts {fuel frame : Nat} {s : Stmt} {ss : List Stmt} {calls : List Closure}
    {m m₁ : Machine} :
    stmt fuel frame s m = .done .normal m₁ →
    Starts ⟨fuel, frame, .stmts (s :: ss), calls, m⟩ ⟨fuel, frame, .stmts ss, calls, m₁⟩
  /-- The statements of a block, in a frame of their own. -/
  | inner {fuel frame : Nat} {body : List Stmt} {calls : List Closure} {m : Machine} :
    Starts ⟨fuel, frame, .block body, calls, m⟩
      ⟨fuel, m.store.frames.size, .stmts body, calls,
        { m with store := (m.store.alloc frame []).2 }⟩
  | otherwise {fuel frame : Nat} {body : List Stmt} {calls : List Closure} {m : Machine} :
    Starts ⟨fuel, frame, .branches (.block body), calls, m⟩ ⟨fuel, frame, .block body, calls, m⟩
  | condition {fuel frame : Nat} {token : Token} {cond : Expr} {body : List Stmt} {rest : Else}
    {calls : List Closure} {m : Machine} :
    Starts ⟨fuel, frame, .branches (.branch token cond body rest), calls, m⟩
      ⟨fuel, frame, .expr cond, calls, m⟩
  | chosen {fuel frame : Nat} {token : Token} {cond : Expr} {body : List Stmt} {rest : Else}
    {calls : List Closure} {m m₁ : Machine} :
    expr fuel frame cond m = .done (.bool true) m₁ →
    Starts ⟨fuel, frame, .branches (.branch token cond body rest), calls, m⟩
      ⟨fuel, frame, .block body, calls, m₁⟩
  | passed {fuel frame : Nat} {token : Token} {cond : Expr} {body : List Stmt} {rest : Else}
    {calls : List Closure} {m m₁ : Machine} :
    expr fuel frame cond m = .done (.bool false) m₁ →
    Starts ⟨fuel, frame, .branches (.branch token cond body rest), calls, m⟩
      ⟨fuel, frame, .branches rest, calls, m₁⟩
  | round {fuel frame count done rounds : Nat} {body : List Stmt} {calls : List Closure}
    {m : Machine} :
    done < count →
    Starts ⟨fuel, frame, .times count done (rounds + 1) body, calls, m⟩
      ⟨fuel, frame, .block body, calls, m⟩
  | moreRounds {fuel frame count done rounds : Nat} {body : List Stmt} {calls : List Closure}
    {m m₁ : Machine} :
    done < count → Eval.block (stmt fuel) frame body m = .done .normal m₁ →
    Starts ⟨fuel, frame, .times count done (rounds + 1) body, calls, m⟩
      ⟨fuel, frame, .times count (Number.countUp done) rounds body, calls, m₁⟩
  | whether {fuel frame rounds : Nat} {token : Token} {cond : Expr} {body : List Stmt}
    {calls : List Closure} {m : Machine} :
    Starts ⟨fuel, frame, .loop token cond body (rounds + 1), calls, m⟩
      ⟨fuel, frame, .expr cond, calls, m⟩
  | again {fuel frame rounds : Nat} {token : Token} {cond : Expr} {body : List Stmt}
    {calls : List Closure} {m m₁ : Machine} :
    expr fuel frame cond m = .done (.bool true) m₁ →
    Starts ⟨fuel, frame, .loop token cond body (rounds + 1), calls, m⟩
      ⟨fuel, frame, .block body, calls, m₁⟩
  | moreAgain {fuel frame rounds : Nat} {token : Token} {cond : Expr} {body : List Stmt}
    {calls : List Closure} {m m₁ m₂ : Machine} :
    expr fuel frame cond m = .done (.bool true) m₁ →
    Eval.block (stmt fuel) frame body m₁ = .done .normal m₂ →
    Starts ⟨fuel, frame, .loop token cond body (rounds + 1), calls, m⟩
      ⟨fuel, frame, .loop token cond body rounds, calls, m₂⟩
  /-- The statements of a program run in the frame of the global variables. -/
  | top {fuel frame : Nat} {s : Stmt} {ss : List Stmt} {calls : List Closure} {m : Machine} :
    Starts ⟨fuel, frame, .program (s :: ss), calls, m⟩ ⟨fuel, Store.globals, .stmt s, calls, m⟩
  | moreTop {fuel frame : Nat} {s : Stmt} {ss : List Stmt} {calls : List Closure}
    {m m₁ : Machine} {flow : Flow} :
    stmt fuel Store.globals s m = .done flow m₁ →
    Starts ⟨fuel, frame, .program (s :: ss), calls, m⟩ ⟨fuel, frame, .program ss, calls, m₁⟩

/-- Part of a part, and so on. -/
abbrev Reaches : Point → Point → Prop := Relation.ReflTransGen Starts

/-! ### Parts are smaller -/

/-- How far an activity is from the trees at the same fuel, and how much of it is left. -/
def Activity.measure : Activity → Nat × Nat
  | .expr _ | .stmt _ => (0, 0)
  | .exprs es => (1, es.length)
  | .stmts ss | .program ss => (1, ss.length)
  | .block _ | .call _ _ _ => (2, 0)
  | .branches rest => (3, rest.length)
  | .times _ _ rounds _ | .loop _ _ _ rounds => (3, rounds)

/-- The measure in which the parts of a point are smaller. -/
def Point.measure (p : Point) : Nat ×ₗ Nat ×ₗ Nat :=
  toLex (p.fuel, toLex p.activity.measure)

theorem Starts.measure_lt {p q : Point} (h : Starts p q) : q.measure < p.measure := by
  cases h <;> simp [Point.measure, Activity.measure, Else.length, Prod.Lex.toLex_lt_toLex]

/-- What holds of a point if it holds of its parts holds of every point. -/
theorem Starts.induction {motive : Point → Prop}
    (h : ∀ p, (∀ q, Starts p q → motive q) → motive p) (p : Point) : motive p := by
  have hwf : WellFounded fun q p => Starts p q :=
    Subrelation.wf Starts.measure_lt (InvImage.wf Point.measure wellFounded_lt)
  exact hwf.induction p h

end Eval

end Offside
