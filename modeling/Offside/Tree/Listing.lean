import Offside.Tree
import Offside.Number.Shortest

/-!
# Listings of programs

A program is listed with one parenthesized form for each statement. A token is listed with its line
and the bytes it covers, so a listing shows where everything was read from.
-/

namespace Offside

/-- A token with its line and bytes. -/
def Token.listing (t : Token) : String :=
  t.lexeme ++ "@" ++ toString t.line ++ ":" ++ toString t.span.start ++ "-" ++
    toString t.span.stop

/-- The words of a form, between parentheses. -/
def form (words : List String) : String := "(" ++ " ".intercalate words ++ ")"

/-- A constant, as it would be written, except that a number too large is `inf`. -/
def Constant.listing : Constant → String
  | .bool value => if value then "true" else "false"
  | .empty => "empty"
  | .number value => value.toText "inf"
  | .text value => "\"" ++ value ++ "\""

mutual

/-- The form of an expression. -/
def Expr.listing : Expr → String
  | .constant value => value.listing
  | .variable name => form ["var", name.listing]
  | .group inner => form ["group", inner.listing]
  | .unary op token operand => form ["unary", op.spelling, token.listing, operand.listing]
  | .binary op token left right =>
    form ["binary", op.spelling, token.listing, left.listing, right.listing]
  | .logical op token left right =>
    form ["logical", op.spelling, token.listing, left.listing, right.listing]
  | .call callee args paren =>
    form ("call" :: paren.listing :: callee.listing :: Expr.listings args)

/-- The forms of a list of expressions. -/
def Expr.listings : List Expr → List String
  | [] => []
  | e :: es => e.listing :: Expr.listings es

end

mutual

/-- The form of a statement. -/
def Stmt.listing : Stmt → String
  | .block body => form ("block" :: Stmt.listings body)
  | .change target value => form ["change", target.listing, value.listing]
  | .create name value => form ["create", name.listing, value.listing]
  | .define name params body =>
    form ["define", name.listing, form (params.map Token.listing),
      form ("block" :: Stmt.listings body)]
  | .expression value => form ["expr", value.listing]
  | .branch token cond body rest =>
    form ("if" :: token.listing :: cond.listing :: form ("block" :: Stmt.listings body) ::
      rest.listings)
  | .repeatTimes token count body =>
    form ["repeat-times", token.listing, count.listing, form ("block" :: Stmt.listings body)]
  | .repeatWhile token cond body =>
    form ["repeat-while", token.listing, cond.listing, form ("block" :: Stmt.listings body)]
  | .returnEmpty token => form ["return", token.listing]
  | .returnWith token value => form ["return-with", token.listing, value.listing]

/-- The forms of a list of statements. -/
def Stmt.listings : List Stmt → List String
  | [] => []
  | s :: ss => s.listing :: Stmt.listings ss

/-- The forms of the further branches of a statement. -/
def Else.listings : Else → List String
  | .nothing => []
  | .block body => [form ["else", form ("block" :: Stmt.listings body)]]
  | .branch token cond body rest =>
    form ["else-if", token.listing, cond.listing, form ("block" :: Stmt.listings body)] ::
      rest.listings

end

end Offside
