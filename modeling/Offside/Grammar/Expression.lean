import Offside.Grammar.Parser

/-!
# The grammar of expressions

From the loosest operators to the tightest: `or`, `and`, comparisons, sums, products, each level
associating to the left; then the operators before an operand, calls, and primary expressions.

The number that a parser here is given is at least the number of tokens ahead. It bounds every loop,
since each round takes a token, and every nesting, since each starts with one.
-/

namespace Offside.Grammar

open Offside.Parser

/-- The greatest number of arguments of a call, and of parameters of a function. -/
def maxArguments : Nat := 255

/-! ### Operators between operands -/

/-- An operator between two operands. -/
inductive Connective
  | logical (op : LogicalOp)
  | binary (op : BinaryOp)
  deriving DecidableEq, Repr

/-- The expression that an operator makes of its operands. -/
def Connective.apply (token : Token) (left right : Expr) : Connective → Expr
  | .logical op => .logical op token left right
  | .binary op => .binary op token left right

/-- The operator `or`. -/
def disjunction? : Kind → Option Connective
  | .orWord => some (.logical .or)
  | _ => none

/-- The operator `and`. -/
def conjunction? : Kind → Option Connective
  | .andWord => some (.logical .and)
  | _ => none

/-- The operators that compare. -/
def comparison? : Kind → Option Connective
  | .equalsWord => some (.binary .equal)
  | .unequalsWord => some (.binary .notEqual)
  | .greater => some (.binary .greater)
  | .greaterEqual => some (.binary .greaterEqual)
  | .less => some (.binary .less)
  | .lessEqual => some (.binary .lessEqual)
  | _ => none

/-- The operators that add. -/
def additive? : Kind → Option Connective
  | .plus => some (.binary .add)
  | .minus => some (.binary .subtract)
  | _ => none

/-- The operators that multiply. -/
def multiplicative? : Kind → Option Connective
  | .asterisk => some (.binary .multiply)
  | .slash => some (.binary .divide)
  | _ => none

/-- The levels of operators, loosest first. -/
def levels : List (Kind → Option Connective) :=
  [disjunction?, conjunction?, comparison?, additive?, multiplicative?]

/-- The further operands of a level, after the expression read so far. -/
def operands (connective? : Kind → Option Connective) (operand : Parser Expr) :
    Nat → Expr → Parser Expr
  | 0, left => pure left
  | bound + 1, left => do
    let token ← peek
    match connective? token.kind with
    | none => pure left
    | some connective =>
      let _ ← advance
      let right ← operand
      operands connective? operand bound (connective.apply token left right)

/-- One level: operands with the operators of the level between them. -/
def level (bound : Nat) (connective? : Kind → Option Connective) (operand : Parser Expr) :
    Parser Expr := do
  let left ← operand
  operands connective? operand bound left

/-! ### Operators before an operand, and calls -/

/-- The operators before an operand. -/
def unary? : Kind → Option UnaryOp
  | .notWord => some .not
  | .minus => some .negate
  | _ => none

/-- An operand with the operators before it. -/
def unary (operand : Parser Expr) : Nat → Parser Expr
  | 0 => operand
  | bound + 1 => do
    let token ← peek
    match unary? token.kind with
    | none => operand
    | some op =>
      let _ ← advance
      return .unary op token (← unary operand bound)

/-- Arguments with commas between them, after `count` others. -/
def arguments (expression : Parser Expr) : Nat → Nat → Parser (List Expr)
  | 0, _ => pure []
  | bound + 1, count => do
    if count = maxArguments then note (.tooManyArguments maxArguments)
    let arg ← expression
    if ← accept .comma then return arg :: (← arguments expression bound (count + 1))
    else return [arg]

/-- The arguments of a call up to the closing parenthesis, if there are any. -/
def argumentList (expression : Parser Expr) (bound : Nat) : Parser (List Expr) := do
  if ← check .rightParen then return [] else arguments expression bound 0

/-- The calls made of an expression. -/
def calls (expression : Parser Expr) (bound : Nat) : Nat → Expr → Parser Expr
  | 0, callee => pure callee
  | rounds + 1, callee => do
    if ← accept .leftParen then
      let args ← argumentList expression bound
      let paren ← expect .rightParen "')' after the arguments"
      calls expression bound rounds (.call callee args paren)
    else return callee

/-! ### Primary expressions -/

/-- The constant that a literal is. -/
def constantOf : Literal → Constant
  | .number value => .number value
  | .text value => .text value

/-- A constant, a variable, or an expression in parentheses. -/
def primary (expression : Parser Expr) : Parser Expr := do
  let token ← peek
  match token.kind with
  | .falseWord => let _ ← advance; return .constant (.bool false)
  | .trueWord => let _ ← advance; return .constant (.bool true)
  | .emptyWord => let _ ← advance; return .constant .empty
  | .number | .text =>
    let _ ← advance
    match token.literal with
    | some literal => return .constant (constantOf literal)
    | none => failAt token .expectedExpression
  | .identifier => let _ ← advance; return .variable token
  | .leftParen =>
    let _ ← advance
    let inner ← expression
    let _ ← expect .rightParen "')' after the expression"
    return .group inner
  | _ => fail .expectedExpression

/-- A primary expression with the calls made of it. -/
def call (expression : Parser Expr) (bound : Nat) : Parser Expr := do
  let callee ← primary expression
  calls expression bound bound callee

/-- An expression, from the parser of the expressions inside it. -/
def expressionOf (inner : Parser Expr) (bound : Nat) : Parser Expr :=
  levels.foldr (level bound) (unary (call inner bound) bound)

/-- An expression; `bound` is greater than the number of tokens ahead. -/
def expression : Nat → Parser Expr
  | 0 => fail .expectedExpression
  | bound + 1 => expressionOf (expression bound) bound

end Offside.Grammar
