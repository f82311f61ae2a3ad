import Offside.Machine

/-!
# Evaluation

Expressions are evaluated and statements executed in a frame, from left to right and from top to
bottom. A block runs in a fresh frame that hangs off the current one; the body of a function runs in
a fresh frame that hangs off the frame of its definition and binds its parameters. A return leaves
every block up to the call. A fault leaves everything.

The fuel that a computation is given bounds how deep it nests and how often each of its loops goes
round. More fuel never changes how a computation ends; too little is told apart from every other
end.

The rules for one construct are functions of the evaluation of what is inside it: `Eval.exprWith`,
`Eval.stmtWith` and the combinators before them. `Eval.expr` and `Eval.stmt` tie the knot.
-/

namespace Offside

/-- How a statement completes. -/
inductive Flow
  | normal
  /-- A return is on its way to the call. -/
  | returned (value : Value)

/-- The value of a call whose body completes so. -/
def Flow.value : Flow → Value
  | .normal => .empty
  | .returned value => value

namespace Eval

/-- The greatest number of calls that may be active at once. -/
def maxCallDepth : Nat := 4096

/-! ### Variables -/

/-- The value of the variable that a token of the running code refers to. -/
def lookup? (m : Machine) (frame : Nat) (name : Token) : Option Value := do
  let distance ← m.context.scope[name.span]?
  m.store.getAt? frame distance name.lexeme

/-- The number of the frame that binds the variable a token of the running code refers to. -/
def locate? (m : Machine) (frame : Nat) (name : Token) : Option Nat := do
  let distance ← m.context.scope[name.span]?
  m.store.locate? frame distance name.lexeme

/-- The value of a variable. -/
def getVariable (frame : Nat) (name : Token) : Run Value := fun m =>
  match lookup? m frame name with
  | some value => .done value m
  | none => Run.fail name (.notDefined name.lexeme) m

/-- Rebind a variable. -/
def setVariable (frame : Nat) (name : Token) (value : Value) : Run Unit := fun m =>
  match locate? m frame name with
  | some target => .done () { m with store := m.store.update target name.lexeme value }
  | none => Run.fail name (.notDefined name.lexeme) m

/-- Bind a new variable in a frame. -/
def defineVariable (frame : Nat) (name : Token) (value : Value) : Run Unit := fun m =>
  if m.store.binds frame name.lexeme then Run.fail name (.alreadyDefined name.lexeme) m
  else .done () { m with store := m.store.define frame name.lexeme value }

/-- A new function, made by the running code in a frame. -/
def makeFunction (frame : Nat) (name : Token) (params : List Token) (body : List Stmt) :
    Run Value := fun m =>
  let closure : Closure :=
    { id := m.definitions, name := name.lexeme, params := params.map (·.lexeme), body := body,
      frame := frame, scope := m.context.scope, file := m.context.file }
  .done (.function closure) { m with definitions := m.definitions + 1 }

/-! ### Lists of expressions and statements -/

/-- The values of expressions in order. -/
def all (eval : Expr → Run Value) : List Expr → Run (List Value)
  | [] => pure []
  | e :: es => do
    let v ← eval e
    return v :: (← all eval es)

/-- Statements in order, up to a return. -/
def sequence (exec : Stmt → Run Flow) : List Stmt → Run Flow
  | [], m => .done .normal m
  | s :: ss, m =>
    match exec s m with
    | .done .normal m => sequence exec ss m
    | r => r

/-- A fresh frame that hangs off another. -/
def enterFrame (parent : Nat) (bindings : Bindings) : Run Nat := fun m =>
  let (frame, store) := m.store.alloc parent bindings
  .done frame { m with store := store }

/-- A block, in a frame of its own. -/
def block (exec : Nat → Stmt → Run Flow) (frame : Nat) (body : List Stmt) : Run Flow := do
  let inner ← enterFrame frame []
  sequence (exec inner) body

/-! ### Calls -/

/-- A computation in the context of other code. Whatever way it ends, the context of the code
before is restored. -/
def within {α : Type} (context : Context) (x : Run α) : Run α := fun m =>
  let before := m.context
  match x { m with context := context } with
  | .done a m => .done a { m with context := before }
  | .fault e m => .fault e { m with context := before }
  | .exhausted => .exhausted

/-- A call of a function with as many arguments as it has parameters. -/
def callFunction (exec : Nat → Stmt → Run Flow) (f : Closure) (args : List Value)
    (paren : Token) : Run Value := fun m =>
  if maxCallDepth ≤ m.context.depth then Run.fail paren .stackOverflow m
  else
    within ⟨f.scope, f.file, m.context.depth + 1⟩
      (do
        let frame ← enterFrame f.frame (Bindings.insertAll [] f.params args)
        let flow ← sequence (exec frame) f.body
        return flow.value) m

/-- Write a value and a line feed to the output. -/
def display (value : Value) (paren : Token) : Run Value := fun m =>
  match m.sink.writeLine value.toText with
  | (sink, true) => .done .empty { m with sink := sink }
  | (sink, false) => Run.stop paren (.output (.cannotWrite "stdout")) { m with sink := sink }

/-- Write values in order, each on a line of its own. -/
def displayAll (paren : Token) : List Value → Run Value
  | [] => pure .empty
  | value :: values => do
    let _ ← display value paren
    displayAll paren values

/-- Take a reading of the clock. -/
def readClock : Run Value := fun m =>
  .done (.number (m.clock m.readings)) { m with readings := m.readings + 1 }

/-- A call of a native function with as many arguments as it takes. -/
def callNative (n : Native) (args : List Value) (paren : Token) : Run Value :=
  match n with
  | .display => displayAll paren args
  | .time => readClock

/-- A call; its faults are reported at the closing parenthesis. -/
def call (exec : Nat → Stmt → Run Flow) (callee : Value) (args : List Value) (paren : Token) :
    Run Value :=
  match callee with
  | .function f =>
    if f.params.length = args.length then callFunction exec f args paren
    else Run.fail paren (.arityMismatch f.params.length args.length)
  | .native n =>
    if n.arity = args.length then callNative n args paren
    else Run.fail paren (.arityMismatch n.arity args.length)
  | _ => Run.fail paren .notCallable

/-! ### Expressions -/

/-- A truth value, or else a fault. -/
def truth (token : Token) (e : RuntimeFault) : Value → Run Bool
  | .bool b => pure b
  | _ => Run.fail token e

/-- An expression in a frame, from the evaluation of what is inside it. -/
def exprWith (eval : Nat → Expr → Run Value) (exec : Nat → Stmt → Run Flow) (frame : Nat) :
    Expr → Run Value
  | .constant value => pure (Value.ofConstant value)
  | .variable name => getVariable frame name
  | .group inner => eval frame inner
  | .unary op token operand => do
    let v ← eval frame operand
    Run.ofExcept token (op.apply v)
  | .binary op token left right => do
    let a ← eval frame left
    let b ← eval frame right
    Run.ofExcept token (op.apply a b)
  | .logical op token left right => do
    let a ← truth token (.operandsNotBooleans op.spelling) (← eval frame left)
    if op.settledBy a then return .bool a
    else
      let b ← truth token (.operandsNotBooleans op.spelling) (← eval frame right)
      return .bool b
  | .call callee args paren => do
    let f ← eval frame callee
    let values ← all (eval frame) args
    call exec f values paren

/-! ### Statements -/

/-- The truth of a condition; a fault is reported at the word that asks for it. -/
def condition (eval : Expr → Run Value) (token : Token) (cond : Expr) : Run Bool := do
  truth token .invalidCondition (← eval cond)

/-- The further branches of a conditional. -/
def branches (eval : Expr → Run Value) (body : List Stmt → Run Flow) : Else → Run Flow
  | .nothing => pure .normal
  | .block stmts => body stmts
  | .branch token cond stmts rest => do
    if ← condition eval token cond then body stmts else branches eval body rest

/-- A body as long as a condition holds. -/
def whileLoop (cond : Run Bool) (body : Run Flow) : Nat → Run Flow
  | 0, _ => .exhausted
  | fuel + 1, m =>
    match cond m with
    | .done true m =>
      match body m with
      | .done .normal m => whileLoop cond body fuel m
      | r => r
    | .done false m => .done .normal m
    | .fault e m => .fault e m
    | .exhausted => .exhausted

/-- A body until it has run `count` times, of which `done` are over. -/
def timesLoop (body : Run Flow) (count : Nat) : Nat → Nat → Run Flow
  | 0, _, _ => .exhausted
  | fuel + 1, done, m =>
    if done < count then
      match body m with
      | .done .normal m => timesLoop body count fuel (Number.countUp done) m
      | r => r
    else .done .normal m

/-- The number of repetitions that a value stands for. -/
def repetitions (token : Token) : Value → Run Nat
  | .number x =>
    match x.toCount? with
    | some count => pure count
    | none => Run.fail token .invalidRepeatCount
  | _ => Run.fail token .invalidRepeatCount

/-- A statement in a frame, from the evaluation of what is inside it. -/
def stmtWith (fuel : Nat) (eval : Nat → Expr → Run Value) (exec : Nat → Stmt → Run Flow)
    (frame : Nat) : Stmt → Run Flow
  | .block body => block exec frame body
  | .change target value => do
    let v ← eval frame value
    setVariable frame target v
    return .normal
  | .create name value => do
    let v ← eval frame value
    defineVariable frame name v
    return .normal
  | .define name params body => do
    let f ← makeFunction frame name params body
    defineVariable frame name f
    return .normal
  | .expression value => do
    let _ ← eval frame value
    return .normal
  | .branch token cond body rest => do
    if ← condition (eval frame) token cond then block exec frame body
    else branches (eval frame) (block exec frame) rest
  | .repeatTimes token count body => do
    let n ← repetitions token (← eval frame count)
    timesLoop (block exec frame body) n fuel 0
  | .repeatWhile token cond body =>
    whileLoop (condition (eval frame) token cond) (block exec frame body) fuel
  | .returnEmpty _ => return .returned .empty
  | .returnWith _ value => do
    let v ← eval frame value
    return .returned v

/-! ### The evaluator -/

mutual

/-- The value of an expression in a frame. -/
def expr : Nat → Nat → Expr → Run Value
  | 0, _, _, _ => .exhausted
  | fuel + 1, frame, e, m => exprWith (expr fuel) (stmt fuel) frame e m

/-- The execution of a statement in a frame. -/
def stmt : Nat → Nat → Stmt → Run Flow
  | 0, _, _, _ => .exhausted
  | fuel + 1, frame, s, m => stmtWith fuel (expr fuel) (stmt fuel) frame s m

end

/-- The statements of a program in order. A program does not return, so how one of its statements
completes makes no difference. -/
def program (fuel : Nat) : List Stmt → Run Unit
  | [], m => .done () m
  | s :: ss, m =>
    match stmt fuel Store.globals s m with
    | .done _ m => program fuel ss m
    | .fault e m => .fault e m
    | .exhausted => .exhausted

end Eval

end Offside
