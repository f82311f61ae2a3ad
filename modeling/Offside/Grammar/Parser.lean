import Offside.Tree

/-!
# Parsers

A parser takes tokens from the front of a list. It answers with a value or with the diagnostic that
stopped it, with the diagnostics it recorded on the way without stopping, and with the tokens left.
The end token of the text is no part of the list: it is never taken, and it is what a parser sees
when the list is empty.

* `Parser`, `Reply`: parsers and their answers, as a monad;
* `Parser.peek`, `Parser.advance`, `Parser.expect`, `Parser.accept`: looking at and taking tokens;
* `Parser.fail`, `Parser.note`: stopping with a diagnostic, and recording one.
-/

namespace Offside

/-- The answer of a parser. -/
structure Reply (α : Type) where
  /-- The value, or what stopped the parser. -/
  outcome : Except Diagnostic α
  /-- The diagnostics recorded on the way, oldest first. -/
  notes : List Diagnostic
  /-- The tokens left. -/
  rest : List Token

/-- A parser, given the end token of the text and the tokens ahead. -/
def Parser (α : Type) : Type := Token → List Token → Reply α

namespace Parser

variable {α β : Type}

/-- Answer with a value and take nothing. -/
@[inline] protected def pure (a : α) : Parser α := fun _ tokens => ⟨.ok a, [], tokens⟩

/-- Run a parser, then the one that its value leads to on the tokens left. -/
@[inline] protected def bind (p : Parser α) (f : α → Parser β) : Parser β := fun last tokens =>
  match p last tokens with
  | ⟨.ok a, notes, rest⟩ =>
    match f a last rest with
    | ⟨outcome, more, rest⟩ => ⟨outcome, notes ++ more, rest⟩
  | ⟨.error e, notes, rest⟩ => ⟨.error e, notes, rest⟩

@[always_inline] instance : Monad Parser where
  pure := Parser.pure
  bind := Parser.bind

/-- The next token. -/
@[inline] def peek : Parser Token := fun last tokens => ⟨.ok (tokens.headD last), [], tokens⟩

/-- Take the next token; the end token stays. -/
@[inline] def advance : Parser Token := fun last tokens =>
  ⟨.ok (tokens.headD last), [], tokens.tail⟩

/-- Stop with a diagnostic at a given token. -/
@[inline] def failAt (t : Token) (e : GrammarError) : Parser α := fun _ tokens =>
  ⟨.error (t.diagnose (.grammar e)), [], tokens⟩

/-- Stop with a diagnostic at the next token. -/
@[inline] def fail (e : GrammarError) : Parser α := fun last tokens =>
  failAt (tokens.headD last) e last tokens

/-- Record a diagnostic at the next token and go on. -/
@[inline] def note (e : GrammarError) : Parser Unit := fun last tokens =>
  ⟨.ok (), [(tokens.headD last).diagnose (.grammar e)], tokens⟩

/-- Whether the next token has a given kind. -/
@[inline] def check (kind : Kind) : Parser Bool := fun last tokens =>
  ⟨.ok ((tokens.headD last).kind = kind), [], tokens⟩

/-- Take the next token if it has a given kind, and say whether it had. -/
@[inline] def accept (kind : Kind) : Parser Bool := fun last tokens =>
  if (tokens.headD last).kind = kind then ⟨.ok true, [], tokens.tail⟩ else ⟨.ok false, [], tokens⟩

/-- Take the next token, which has to have a given kind. -/
def expect (kind : Kind) (what : String) : Parser Token := fun last tokens =>
  if (tokens.headD last).kind = kind then advance last tokens
  else fail (.expected what) last tokens

end Parser

end Offside
