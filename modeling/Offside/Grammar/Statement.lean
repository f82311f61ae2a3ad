import Offside.Grammar.Expression
import Offside.Grammar.Recovery

/-!
# The grammar of statements

A simple statement ends with its line. A header line is followed by a block: an indented region of
at least one statement. Malformed statements of a block, or of the program, are reported and left
out.

As for expressions, the number that a parser is given is at least the number of tokens ahead.
-/

namespace Offside.Grammar

open Offside.Parser

/-! ### Blocks -/

/-- The end of a line. -/
def endOfLine : Parser Unit := do
  let _ ← expect .newline "the end of the line"

/-- The well-formed statements up to the end of the block. -/
def statements (statement : Parser Stmt) : Nat → Parser (List Stmt)
  | 0 => pure []
  | bound + 1 => do
    let token ← peek
    if token.kind = .dedent || token.kind = .endOfFile then return []
    match ← recovering statement with
    | some s => return s :: (← statements statement bound)
    | none => statements statement bound

/-- The block after a header line. One that is left without statements is reported. -/
def block (statement : Parser Stmt) (bound : Nat) : Parser (List Stmt) := do
  endOfLine
  if ← accept .indent then
    let body ← statements statement bound
    if body.isEmpty then note .emptyBlock
    let _ ← expect .dedent "the end of the block"
    return body
  else fail .expectedBlock

/-! ### Simple statements -/

/-- A new value for a variable. That the target is a variable is tested once the whole assignment
has been read. -/
def change (expression : Parser Expr) : Parser Stmt := do
  let _ ← advance
  let target ← expression
  let equal ← expect .equal "'=' after the target of 'change'"
  let value ← expression
  match target with
  | .variable name =>
    endOfLine
    return .change name value
  | _ => failAt equal .invalidChangeTarget

/-- A new variable. -/
def create (expression : Parser Expr) : Parser Stmt := do
  let _ ← advance
  let name ← expect .identifier "a variable name after 'create'"
  let _ ← expect .equal "'=' after the variable name"
  let value ← expression
  endOfLine
  return .create name value

/-- The end of a function's work, with or without a value. -/
def giveBack (expression : Parser Expr) : Parser Stmt := do
  let token ← advance
  if ← accept .withWord then
    let value ← expression
    endOfLine
    return .returnWith token value
  else
    endOfLine
    return .returnEmpty token

/-- An expression on a line of its own. A variable before an equals sign is an assignment that
lacks its word. -/
def expressionStatement (expression : Parser Expr) : Parser Stmt := do
  let value ← expression
  match value with
  | .variable name =>
    if ← check .equal then fail (.missingCreateOrChange name.lexeme)
    else
      endOfLine
      return .expression value
  | _ =>
    endOfLine
    return .expression value

/-! ### Compound statements -/

/-- Parameters with commas between them, after `count` others. -/
def parameters : Nat → Nat → Parser (List Token)
  | 0, _ => pure []
  | bound + 1, count => do
    if count = maxArguments then note (.tooManyParameters maxArguments)
    let name ← expect .identifier "a parameter name"
    if ← accept .comma then return name :: (← parameters bound (count + 1))
    else return [name]

/-- The parameters of a function, if it accepts any. -/
def parameterList (bound : Nat) : Parser (List Token) := do
  if ← accept .acceptWord then parameters bound 0 else return []

/-- A function. -/
def define (statement : Parser Stmt) (bound : Nat) : Parser Stmt := do
  let _ ← advance
  let name ← expect .identifier "a function name after 'define'"
  let _ ← expect .leftParen "'(' after the function name"
  let params ← parameterList bound
  let _ ← expect .rightParen "')' after the parameters"
  let body ← block statement bound
  return .define name params body

/-- The further branches of a conditional. -/
def alternatives (expression : Parser Expr) (body : Parser (List Stmt)) : Nat → Parser Else
  | 0 => pure .nothing
  | bound + 1 => do
    if ← accept .otherwiseWord then
      let token ← peek
      if ← accept .ifWord then
        let cond ← expression
        let stmts ← body
        return .branch token cond stmts (← alternatives expression body bound)
      else return .block (← body)
    else return .nothing

/-- A conditional. -/
def conditional (expression : Parser Expr) (statement : Parser Stmt) (bound : Nat) :
    Parser Stmt := do
  let token ← advance
  let cond ← expression
  let body ← block statement bound
  return .branch token cond body (← alternatives expression (block statement bound) bound)

/-- A loop. -/
def repetition (expression : Parser Expr) (statement : Parser Stmt) (bound : Nat) :
    Parser Stmt := do
  let token ← advance
  if ← accept .whileWord then
    let cond ← expression
    let body ← block statement bound
    return .repeatWhile token cond body
  else
    let count ← expression
    let _ ← expect .timesWord "'times' after the number of repetitions"
    let body ← block statement bound
    return .repeatTimes token count body

/-- A statement, from the parsers of the expressions and statements inside it. -/
def statementOf (expression : Parser Expr) (inner : Parser Stmt) (bound : Nat) : Parser Stmt := do
  let token ← peek
  match token.kind with
  | .changeWord => change expression
  | .createWord => create expression
  | .defineWord => define inner bound
  | .ifWord => conditional expression inner bound
  | .indent => fail .unexpectedIndent
  | .repeatWord => repetition expression inner bound
  | .returnWord => giveBack expression
  | _ => expressionStatement expression

/-- A statement; `bound` is greater than the number of tokens ahead. -/
def statement : Nat → Parser Stmt
  | 0 => fail .expectedExpression
  | bound + 1 => statementOf (expression (bound + 1)) (statement bound) bound

/-! ### Programs -/

/-- The well-formed statements up to the end of the text. A dedent here closes nothing. -/
def program (statement : Parser Stmt) : Nat → Parser (List Stmt)
  | 0 => pure []
  | bound + 1 => do
    let token ← peek
    if token.kind = .endOfFile then return []
    if token.kind = .dedent then
      let _ ← advance
      program statement bound
    else
      match ← recovering statement with
      | some s => return s :: (← program statement bound)
      | none => program statement bound

end Offside.Grammar
