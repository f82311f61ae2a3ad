import Offside.Tree

/-!
# The tokens of a tree

A tree keeps some of the tokens it was read from. They are listed here in the order of the text,
each with the part it plays: what a name is for, which operator stands between operands, where a
call is closed, which word a fault of a condition or of a count is reported at.

* `Role`, `Mark`: a part, and a token that plays it;
* `Expr.marks`, `Stmt.marks`, `Else.marks`: the tokens of a tree;
* `Expr.mapTokens`, `Stmt.mapTokens`, `Else.mapTokens`: the tree with other tokens in their place.
-/

namespace Offside

/-- The part that a token plays in a tree. -/
inductive Role
  /-- A read of a variable, or the target of a `change`. -/
  | reference
  /-- The name of a new variable, of a function or of a parameter. -/
  | declaration
  | operator
  /-- The closing parenthesis of a call. -/
  | closing
  /-- The first word of a conditional, a loop or a return. -/
  | word
  deriving DecidableEq, Repr

/-- The kinds of the tokens that can play a part. -/
def Role.kinds : Role → List Kind
  | .reference | .declaration => [.identifier]
  | .operator =>
    [.orWord, .andWord, .equalsWord, .unequalsWord, .greater, .greaterEqual, .less, .lessEqual,
      .plus, .minus, .asterisk, .slash, .notWord]
  | .closing => [.rightParen]
  | .word => [.ifWord, .repeatWord, .returnWord]

/-- A token with the part it plays. -/
abbrev Mark := Role × Token

mutual

/-- The tokens of an expression. -/
def Expr.marks : Expr → List Mark
  | .constant _ => []
  | .variable name => [(.reference, name)]
  | .group inner => inner.marks
  | .unary _ token operand => (.operator, token) :: operand.marks
  | .binary _ token left right => left.marks ++ (.operator, token) :: right.marks
  | .logical _ token left right => left.marks ++ (.operator, token) :: right.marks
  | .call callee args paren => callee.marks ++ Expr.allMarks args ++ [(.closing, paren)]

/-- The tokens of expressions in order. -/
def Expr.allMarks : List Expr → List Mark
  | [] => []
  | e :: es => e.marks ++ Expr.allMarks es

end

mutual

/-- The tokens of a statement. -/
def Stmt.marks : Stmt → List Mark
  | .block body => Stmt.allMarks body
  | .change target value => (.reference, target) :: value.marks
  | .create name value => (.declaration, name) :: value.marks
  | .define name params body =>
    (.declaration, name) :: params.map (.declaration, ·) ++ Stmt.allMarks body
  | .expression value => value.marks
  | .branch token cond body rest =>
    (.word, token) :: cond.marks ++ Stmt.allMarks body ++ rest.marks
  | .repeatTimes token count body => (.word, token) :: count.marks ++ Stmt.allMarks body
  | .repeatWhile token cond body => (.word, token) :: cond.marks ++ Stmt.allMarks body
  | .returnEmpty token => [(.word, token)]
  | .returnWith token value => (.word, token) :: value.marks

/-- The tokens of statements in order. -/
def Stmt.allMarks : List Stmt → List Mark
  | [] => []
  | s :: ss => s.marks ++ Stmt.allMarks ss

/-- The tokens of the further branches of a conditional. -/
def Else.marks : Else → List Mark
  | .nothing => []
  | .block body => Stmt.allMarks body
  | .branch token cond body rest =>
    (.word, token) :: cond.marks ++ Stmt.allMarks body ++ rest.marks

end

/-- The name that a statement declares in the scope it stands in. -/
def Stmt.declared? : Stmt → Option Token
  | .create name _ | .define name _ _ => some name
  | _ => none

/-- A statement is a return, with a value or without one. -/
def Stmt.isReturn : Stmt → Bool
  | .returnEmpty _ | .returnWith _ _ => true
  | _ => false

/-- The tokens that refer to a variable. -/
def references (marks : List Mark) : List Token :=
  (marks.filter fun m => m.1 = .reference).map (·.2)

@[simp] theorem references_nil : references [] = [] := rfl

@[simp] theorem references_append (as bs : List Mark) :
    references (as ++ bs) = references as ++ references bs := by
  simp [references]

theorem references_cons (m : Mark) (ms : List Mark) :
    references (m :: ms) = (if m.1 = .reference then [m.2] else []) ++ references ms := by
  by_cases h : m.1 = .reference <;> simp [references, h]

/-! ### Other tokens in their place -/

mutual

/-- An expression with its tokens replaced. -/
def Expr.mapTokens (f : Token → Token) : Expr → Expr
  | .constant value => .constant value
  | .variable name => .variable (f name)
  | .group inner => .group (inner.mapTokens f)
  | .unary op token operand => .unary op (f token) (operand.mapTokens f)
  | .binary op token left right => .binary op (f token) (left.mapTokens f) (right.mapTokens f)
  | .logical op token left right => .logical op (f token) (left.mapTokens f) (right.mapTokens f)
  | .call callee args paren => .call (callee.mapTokens f) (Expr.mapAllTokens f args) (f paren)

/-- Expressions with their tokens replaced. -/
def Expr.mapAllTokens (f : Token → Token) : List Expr → List Expr
  | [] => []
  | e :: es => e.mapTokens f :: Expr.mapAllTokens f es

end

mutual

/-- A statement with its tokens replaced. -/
def Stmt.mapTokens (f : Token → Token) : Stmt → Stmt
  | .block body => .block (Stmt.mapAllTokens f body)
  | .change target value => .change (f target) (value.mapTokens f)
  | .create name value => .create (f name) (value.mapTokens f)
  | .define name params body => .define (f name) (params.map f) (Stmt.mapAllTokens f body)
  | .expression value => .expression (value.mapTokens f)
  | .branch token cond body rest =>
    .branch (f token) (cond.mapTokens f) (Stmt.mapAllTokens f body) (rest.mapTokens f)
  | .repeatTimes token count body =>
    .repeatTimes (f token) (count.mapTokens f) (Stmt.mapAllTokens f body)
  | .repeatWhile token cond body =>
    .repeatWhile (f token) (cond.mapTokens f) (Stmt.mapAllTokens f body)
  | .returnEmpty token => .returnEmpty (f token)
  | .returnWith token value => .returnWith (f token) (value.mapTokens f)

/-- Statements with their tokens replaced. -/
def Stmt.mapAllTokens (f : Token → Token) : List Stmt → List Stmt
  | [] => []
  | s :: ss => s.mapTokens f :: Stmt.mapAllTokens f ss

/-- The further branches of a conditional with their tokens replaced. -/
def Else.mapTokens (f : Token → Token) : Else → Else
  | .nothing => .nothing
  | .block body => .block (Stmt.mapAllTokens f body)
  | .branch token cond body rest =>
    .branch (f token) (cond.mapTokens f) (Stmt.mapAllTokens f body) (rest.mapTokens f)

end

mutual

@[simp] theorem Expr.mapTokens_id : ∀ e : Expr, e.mapTokens id = e
  | .constant _ => rfl
  | .variable _ => rfl
  | .group inner => by simp [Expr.mapTokens, inner.mapTokens_id]
  | .unary _ _ operand => by simp [Expr.mapTokens, operand.mapTokens_id]
  | .binary _ _ left right => by simp [Expr.mapTokens, left.mapTokens_id, right.mapTokens_id]
  | .logical _ _ left right => by simp [Expr.mapTokens, left.mapTokens_id, right.mapTokens_id]
  | .call callee args _ => by simp [Expr.mapTokens, callee.mapTokens_id, mapAllTokens_id args]

@[simp] theorem Expr.mapAllTokens_id : ∀ es : List Expr, Expr.mapAllTokens id es = es
  | [] => rfl
  | e :: es => by simp [Expr.mapAllTokens, e.mapTokens_id, mapAllTokens_id es]

end

mutual

@[simp] theorem Stmt.mapTokens_id : ∀ s : Stmt, s.mapTokens id = s
  | .block body => by simp [Stmt.mapTokens, Stmt.mapAllTokens_id body]
  | .change _ _ => by simp [Stmt.mapTokens]
  | .create _ _ => by simp [Stmt.mapTokens]
  | .define _ _ body => by simp [Stmt.mapTokens, Stmt.mapAllTokens_id body]
  | .expression _ => by simp [Stmt.mapTokens]
  | .branch _ _ body further => by
    simp [Stmt.mapTokens, Stmt.mapAllTokens_id body, further.mapTokens_id]
  | .repeatTimes _ _ body => by simp [Stmt.mapTokens, Stmt.mapAllTokens_id body]
  | .repeatWhile _ _ body => by simp [Stmt.mapTokens, Stmt.mapAllTokens_id body]
  | .returnEmpty _ => rfl
  | .returnWith _ _ => by simp [Stmt.mapTokens]

@[simp] theorem Stmt.mapAllTokens_id : ∀ ss : List Stmt, Stmt.mapAllTokens id ss = ss
  | [] => rfl
  | s :: ss => by simp [Stmt.mapAllTokens, s.mapTokens_id, Stmt.mapAllTokens_id ss]

@[simp] theorem Else.mapTokens_id : ∀ r : Else, r.mapTokens id = r
  | .nothing => rfl
  | .block body => by simp [Else.mapTokens, Stmt.mapAllTokens_id body]
  | .branch _ _ body further => by
    simp [Else.mapTokens, Stmt.mapAllTokens_id body, further.mapTokens_id]

end

end Offside
