import Offside.Number.Shortest
import Offside.Scope

/-!
# Values

What an expression can evaluate to, how a value is displayed, when two values are equal, and what
the operators make of values.

A function is its definition together with the frame it was defined in and what is known about the
run that defined it: the distances of its references and the source unit it was read from. Each
execution of a definition makes a new function, told from others by its number.
-/

namespace Offside

/-- The functions bound in every program. -/
inductive Native
  | display | time
  deriving DecidableEq, Repr

namespace Native

/-- The name a native function is bound to. -/
def name : Native → String
  | .display => "display"
  | .time => "time"

/-- The number of arguments it takes. -/
def arity : Native → Nat
  | .display => 1
  | .time => 0

/-- All native functions. -/
def all : List Native := [.display, .time]

end Native

/-- A function defined by a program. -/
structure Closure where
  /-- The number of the execution of the definition. -/
  id : Nat
  name : String
  params : List String
  body : List Stmt
  /-- The frame the function was defined in. -/
  frame : Nat
  /-- The distances of the references in the body. -/
  scope : ScopeMap
  /-- The source unit the body was read from. -/
  file : Nat

/-- A value. -/
inductive Value
  | bool (value : Bool)
  | empty
  | number (value : Number)
  | text (value : String)
  | native (value : Native)
  | function (value : Closure)

namespace Value

/-- The value of a constant. -/
def ofConstant : Constant → Value
  | .bool value => .bool value
  | .empty => .empty
  | .number value => .number value
  | .text value => .text value

/-- The form in which a value is displayed. -/
def toText : Value → String
  | .bool value => if value then "true" else "false"
  | .empty => "empty"
  | .number value => value.toText "infinity"
  | .text value => value
  | .native value => "<native " ++ value.name ++ ">"
  | .function value => "<function " ++ value.name ++ ">"

/-- Equality in the language. Values of different kinds are never equal, and two functions are equal
only if one execution of one definition made both. -/
def same : Value → Value → Bool
  | .bool a, .bool b => a = b
  | .empty, .empty => true
  | .number a, .number b => a.same b
  | .text a, .text b => a = b
  | .native a, .native b => a = b
  | .function a, .function b => a.id = b.id
  | _, _ => false

end Value

/-! ### Operators -/

/-- The value of an operator on a value. -/
def UnaryOp.apply (op : UnaryOp) (v : Value) : Except RuntimeFault Value :=
  match op, v with
  | .negate, .number x => .ok (.number x.neg)
  | .negate, _ => .error (.operandNotNumber op.spelling)
  | .not, .bool b => .ok (.bool !b)
  | .not, _ => .error (.operandNotBoolean op.spelling)

/-- The value of an operator on two numbers. A division by either zero is a fault. -/
def BinaryOp.applyNumbers (op : BinaryOp) (x y : Number) : Except RuntimeFault Value :=
  match op with
  | .add => .ok (.number (x.add y))
  | .subtract => .ok (.number (x.sub y))
  | .multiply => .ok (.number (x.mul y))
  | .divide => if y.isZero then .error .divisionByZero else .ok (.number (x.div y))
  | .less => .ok (.bool (x.less y))
  | .lessEqual => .ok (.bool (x.atMost y))
  | .greater => .ok (.bool (y.less x))
  | .greaterEqual => .ok (.bool (y.atMost x))
  | .equal => .ok (.bool (x.same y))
  | .notEqual => .ok (.bool !x.same y)

/-- The value of an operator on two values. Equality takes any values, addition two numbers or two
texts, and every other operator two numbers. -/
def BinaryOp.apply (op : BinaryOp) (a b : Value) : Except RuntimeFault Value :=
  match op with
  | .equal => .ok (.bool (a.same b))
  | .notEqual => .ok (.bool !a.same b)
  | .add =>
    match a, b with
    | .number x, .number y => BinaryOp.add.applyNumbers x y
    | .text s, .text t => .ok (.text (s ++ t))
    | _, _ => .error (.operandsNotNumbersOrTexts BinaryOp.add.spelling)
  | op =>
    match a, b with
    | .number x, .number y => op.applyNumbers x y
    | _, _ => .error (.operandsNotNumbers op.spelling)

/-- Whether the left operand alone settles the value, which is then that operand. -/
def LogicalOp.settledBy : LogicalOp → Bool → Bool
  | .and, left => !left
  | .or, left => left

end Offside
