import Offside.Text

/-!
# Diagnostics

What can go wrong with a program, and how it is said. A `Diagnostic` pins a `Cause` to a line, to a
`Place` on that line, and to the bytes it covers. A cause comes from one phase: scanning, parsing,
scope analysis, execution, or writing the output.

* `LexicalError`, `GrammarError`, `ScopeError`, `RuntimeFault`, `OutputError`: the causes by phase;
* `Cause.code`, `Cause.message`: their wording;
* `Diagnostic.toLine`: the form on one line.
-/

namespace Offside

/-! ### Causes -/

/-- A fault in the characters or the indentation of a text. -/
inductive LexicalError
  | inconsistentIndentation
  | indentationTooDeep (max : Nat)
  | missingFinalNewline
  | unexpectedCharacter
  | unmatchedIndentation
  | unterminatedText
  deriving DecidableEq, Repr

/-- A fault in the order of tokens. -/
inductive GrammarError
  | emptyBlock
  | expected (what : String)
  | expectedBlock
  | expectedExpression
  | invalidChangeTarget
  | missingCreateOrChange (name : String)
  | tooManyArguments (max : Nat)
  | tooManyParameters (max : Nat)
  | unexpectedIndent
  deriving DecidableEq, Repr

/-- A fault in the use of names, found before anything runs. -/
inductive ScopeError
  | accessInsideInitializer (name : String)
  | alreadyDefined (name : String)
  | notDefined (name : String)
  | returnOutsideFunction
  deriving DecidableEq, Repr

/-- A fault that stops a running program. -/
inductive RuntimeFault
  | alreadyDefined (name : String)
  | arityMismatch (expected got : Nat)
  | divisionByZero
  | invalidCondition
  | invalidRepeatCount
  | notCallable
  | notDefined (name : String)
  | operandNotBoolean (op : String)
  | operandNotNumber (op : String)
  | operandsNotBooleans (op : String)
  | operandsNotNumbers (op : String)
  | operandsNotNumbersOrTexts (op : String)
  | stackOverflow
  deriving DecidableEq, Repr

/-- A fault of the place the output goes to. -/
inductive OutputError
  | cannotWrite (file : String)
  deriving DecidableEq, Repr

/-- What went wrong, in whichever phase. -/
inductive Cause
  | lexical (e : LexicalError)
  | grammar (e : GrammarError)
  | scope (e : ScopeError)
  | runtime (e : RuntimeFault)
  | output (e : OutputError)
  deriving DecidableEq, Repr

/-! ### Wording -/

/-- The wording of a lexical error. -/
def LexicalError.message : LexicalError → String
  | .inconsistentIndentation => "Inconsistent use of tabs and spaces in indentation."
  | .indentationTooDeep max =>
    "Too many levels of indentation (the maximum is " ++ toString max ++ ")."
  | .missingFinalNewline => "File must end with a newline at no indentation."
  | .unexpectedCharacter => "Unexpected character."
  | .unmatchedIndentation => "Indentation matches no previous level."
  | .unterminatedText => "Unterminated text."

/-- The wording of a grammar error. -/
def GrammarError.message : GrammarError → String
  | .emptyBlock => "A block must contain at least one statement."
  | .expected what => "Expected " ++ what ++ "."
  | .expectedBlock => "Expected an indented block."
  | .expectedExpression => "Expected an expression."
  | .invalidChangeTarget => "Invalid target for 'change'; expected a variable name."
  | .missingCreateOrChange name =>
    "Unexpected '='. Did you mean 'create " ++ name ++ " = ...' or 'change " ++ name ++ " = ...'?"
  | .tooManyArguments max => "Cannot have more than " ++ toString max ++ " arguments."
  | .tooManyParameters max => "Cannot have more than " ++ toString max ++ " parameters."
  | .unexpectedIndent => "Unexpected indentation."

/-- The wording of a scope error. -/
def ScopeError.message : ScopeError → String
  | .accessInsideInitializer name =>
    "Cannot read variable '" ++ name ++ "' in its own initializer."
  | .alreadyDefined name => "Variable '" ++ name ++ "' is already defined in this scope."
  | .notDefined name => "Undefined variable '" ++ name ++ "'."
  | .returnOutsideFunction => "Cannot return from outside a function."

/-- The wording of a runtime fault. -/
def RuntimeFault.message : RuntimeFault → String
  | .alreadyDefined name => "Variable '" ++ name ++ "' is already defined in this scope."
  | .arityMismatch expected got =>
    "Expected " ++ toString expected ++ " arguments but got " ++ toString got ++ "."
  | .divisionByZero => "Division by zero is not allowed."
  | .invalidCondition => "Condition must be a boolean."
  | .invalidRepeatCount => "The number of repetitions must be a positive integer."
  | .notCallable => "Only functions can be called."
  | .notDefined name => "Undefined variable '" ++ name ++ "'."
  | .operandNotBoolean op => "Operand of '" ++ op ++ "' must be a boolean."
  | .operandNotNumber op => "Operand of '" ++ op ++ "' must be a number."
  | .operandsNotBooleans op => "Operands of '" ++ op ++ "' must be booleans."
  | .operandsNotNumbers op => "Operands of '" ++ op ++ "' must be numbers."
  | .operandsNotNumbersOrTexts op =>
    "Operands of '" ++ op ++ "' must be only numbers or only texts."
  | .stackOverflow => "Maximum recursion depth exceeded."

/-- The wording of an output error. -/
def OutputError.message : OutputError → String
  | .cannotWrite file => "Unable to write to " ++ file ++ "."

namespace Cause

/-- The name of the phase a cause belongs to. -/
def code : Cause → String
  | .lexical _ => "LexicalError"
  | .grammar _ => "SyntaxError"
  | .scope _ => "ResolutionError"
  | .runtime _ => "RuntimeError"
  | .output _ => "IOError"

/-- The wording of a cause, without its code. -/
def message : Cause → String
  | .lexical e => e.message
  | .grammar e => e.message
  | .scope e => e.message
  | .runtime e => e.message
  | .output e => e.message

/-- Whether a cause arises while a program runs, as opposed to before. -/
def isRuntime : Cause → Bool
  | .runtime _ | .output _ => true
  | _ => false

/-- Code and wording together. -/
def toText (cause : Cause) : String := cause.code ++ ": " ++ cause.message

end Cause

/-! ### Diagnostics -/

/-- Where on its line a diagnostic points. -/
inductive Place
  | endOfBlock
  | endOfFile
  | endOfLine
  | indentation
  | lexeme (text : String)
  deriving DecidableEq, Repr

/-- The wording of a place. -/
def Place.toText : Place → String
  | .endOfBlock => "at the end of the block"
  | .endOfFile => "at the end of the file"
  | .endOfLine => "at the end of the line"
  | .indentation => "at the indentation"
  | .lexeme text => "at '" ++ text ++ "'"

/-- A cause pinned to a line, a place on that line, and the bytes it covers. The source unit that
line and bytes belong to is known once it is attributed. -/
structure Diagnostic where
  cause : Cause
  line : Nat
  place : Place
  span : Span
  file : Option Nat := none
  deriving DecidableEq, Repr

namespace Diagnostic

/-- Attribute a diagnostic to a source unit, unless it already belongs to one. -/
def inFile (d : Diagnostic) (file : Nat) : Diagnostic :=
  { d with file := d.file.or (some file) }

/-- The form on one line. -/
def toLine (d : Diagnostic) : String :=
  "[line " ++ toString d.line ++ "] " ++ d.cause.code ++ " " ++ d.place.toText ++ ": " ++
    d.cause.message

end Diagnostic

end Offside
