import Offside.Token

/-!
# Programs as trees

A program is a list of statements. Names, operators, closing parentheses and the words that faults
are reported at are kept as the tokens they were read from.

* `Expr`, `Stmt`, `Else`: expressions, statements, and the further branches of a conditional;
* `BinaryOp`, `LogicalOp`, `UnaryOp`: the operators, with their spelling.
-/

namespace Offside

/-! ### Operators -/

/-- The operators that always evaluate both operands. -/
inductive BinaryOp
  | add | subtract | multiply | divide
  | less | lessEqual | greater | greaterEqual | equal | notEqual
  deriving DecidableEq, Repr

/-- The spelling of a binary operator. -/
def BinaryOp.spelling : BinaryOp → String
  | .add => "+"
  | .subtract => "-"
  | .multiply => "*"
  | .divide => "/"
  | .less => "<"
  | .lessEqual => "<="
  | .greater => ">"
  | .greaterEqual => ">="
  | .equal => "equals"
  | .notEqual => "unequals"

/-- The operators that evaluate their right operand only if the left one leaves the answer open. -/
inductive LogicalOp
  | and | or
  deriving DecidableEq, Repr

/-- The spelling of a logical operator. -/
def LogicalOp.spelling : LogicalOp → String
  | .and => "and"
  | .or => "or"

/-- The operators before a single operand. -/
inductive UnaryOp
  | negate | not
  deriving DecidableEq, Repr

/-- The spelling of a unary operator. -/
def UnaryOp.spelling : UnaryOp → String
  | .negate => "-"
  | .not => "not"

/-! ### Expressions and statements -/

/-- A value written in a program. -/
inductive Constant
  | bool (value : Bool)
  | empty
  | number (value : Number)
  | text (value : String)
  deriving DecidableEq, Repr

/-- An expression. -/
inductive Expr
  | constant (value : Constant)
  /-- A reference to a variable; the span of the name tells it from other references. -/
  | variable (name : Token)
  /-- An expression in parentheses. -/
  | group (inner : Expr)
  | unary (op : UnaryOp) (token : Token) (operand : Expr)
  | binary (op : BinaryOp) (token : Token) (left right : Expr)
  | logical (op : LogicalOp) (token : Token) (left right : Expr)
  /-- A call; its faults are reported at the closing parenthesis. -/
  | call (callee : Expr) (args : List Expr) (paren : Token)
  deriving Inhabited

mutual

/-- A statement. A list of statements inside one is a block, with a scope of its own. -/
inductive Stmt
  | block (body : List Stmt)
  /-- Rebinds a variable. -/
  | change (target : Token) (value : Expr)
  /-- Binds a new variable in the current scope. -/
  | create (name : Token) (value : Expr)
  /-- Binds a function in the current scope. -/
  | define (name : Token) (params : List Token) (body : List Stmt)
  /-- Evaluates an expression and drops its value. -/
  | expression (value : Expr)
  | branch (token : Token) (cond : Expr) (body : List Stmt) (rest : Else)
  | repeatTimes (token : Token) (count : Expr) (body : List Stmt)
  | repeatWhile (token : Token) (cond : Expr) (body : List Stmt)
  | returnEmpty (token : Token)
  | returnWith (token : Token) (value : Expr)

/-- What is tried when the condition of a branch is false. -/
inductive Else
  | nothing
  | block (body : List Stmt)
  | branch (token : Token) (cond : Expr) (body : List Stmt) (rest : Else)

end

end Offside
