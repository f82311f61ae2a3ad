import Offside.Grammar.Statement
import Offside.Layout

/-!
# Reading programs

* `Grammar.parse`: the statements kept of a token stream, and the diagnostics recorded;
* `Grammar.readLeniently`: the same of a text, with the faults of scanning first;
* `Grammar.read`: the program of a text without faults, where parsing starts only if scanning went
  through.
-/

namespace Offside.Grammar

/-- What is kept of a program, and what was found wrong with it. -/
structure Reading where
  stmts : List Stmt
  errors : List Diagnostic

/-- Whether a token marks the end of the text. -/
def isEnd (t : Token) : Bool := t.kind = .endOfFile

/-- The tokens before the end of the text. -/
def ahead (tokens : List Token) : List Token := tokens.takeWhile fun t => !isEnd t

/-- The end token of a stream, at the very start if the stream has none. -/
def endToken (tokens : List Token) : Token :=
  (tokens.find? isEnd).getD { kind := .endOfFile, lexeme := "", line := 1, span := Span.empty 0 }

/-- The statements kept of a token stream, and the diagnostics recorded. -/
def parse (tokens : List Token) : Reading :=
  let tokens' := ahead tokens
  let bound := tokens'.length + 1
  let reply := program (statement bound) bound (endToken tokens) tokens'
  match reply.outcome with
  | .ok stmts => ⟨stmts, reply.notes⟩
  | .error e => ⟨[], reply.notes ++ [e]⟩

/-- The statements kept of a text, and the faults of scanning and then of parsing it. -/
def readLeniently (cs : List Char) : Reading :=
  let scan := Layout.scan cs
  let reading := parse scan.tokens
  ⟨reading.stmts, scan.errors ++ reading.errors⟩

/-- The program of a text, or the faults of the first phase that found any. -/
def read (cs : List Char) : Except (List Diagnostic) (List Stmt) :=
  let scan := Layout.scan cs
  if scan.errors.isEmpty then
    let reading := parse scan.tokens
    if reading.errors.isEmpty then .ok reading.stmts else .error reading.errors
  else .error scan.errors

end Offside.Grammar
