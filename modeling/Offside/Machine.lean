import Offside.Store

/-!
# The machine

What a running program works on: the frames, the output written so far, the clock, and the context
of the code that is running. The output may be closed to more than a given number of lines. The
clock is a sequence of readings, one for each time a program asks.

* `Sink`, `Context`, `Machine`: the parts and the whole;
* `Result`, `Run`: a computation on the machine ends with a value, with a fault, or for lack of
  fuel.
-/

namespace Offside

/-! ### Output and clock -/

/-- The output of a run. -/
structure Sink where
  /-- What has been written. -/
  text : String
  /-- The number of line feeds that have been written. -/
  lines : Nat
  /-- The number of line feeds after which nothing more can be written, if there is one. -/
  limit : Option Nat
  deriving DecidableEq, Repr

namespace Sink

/-- An output that nothing has been written to. -/
def fresh (limit : Option Nat) : Sink := ⟨"", 0, limit⟩

/-- Whether more can be written. -/
def isOpen (s : Sink) : Bool :=
  match s.limit with
  | none => true
  | some limit => s.lines < limit

/-- The output after one more piece of text; nothing is always written. -/
def write? (s : Sink) (piece : String) : Option Sink :=
  if piece.isEmpty then some s
  else if s.isOpen then
    some { s with text := s.text ++ piece, lines := s.lines + piece.toList.count '\n' }
  else none

/-- The output after a text and a line feed, as far as they could be written, and whether they
could. -/
def writeLine (s : Sink) (text : String) : Sink × Bool :=
  match s.write? text with
  | none => (s, false)
  | some s =>
    match s.write? "\n" with
    | none => (s, false)
    | some s => (s, true)

end Sink

/-- The readings of a clock, in the order in which they are taken. -/
abbrev Clock := Nat → Number

/-! ### The machine -/

/-- What is known about the running code. -/
structure Context where
  /-- The distances of its references. -/
  scope : ScopeMap
  /-- The source unit it was read from. -/
  file : Nat
  /-- The number of calls of functions that are active. -/
  depth : Nat

/-- The state of a running program. -/
structure Machine where
  store : Store
  /-- The number of definitions of functions executed so far. -/
  definitions : Nat
  sink : Sink
  clock : Clock
  /-- The number of readings of the clock taken so far. -/
  readings : Nat
  context : Context

/-! ### Computations -/

/-- How a computation ends. -/
inductive Result (α : Type)
  | done (value : α) (machine : Machine)
  | fault (error : Diagnostic) (machine : Machine)
  /-- The fuel did not last. -/
  | exhausted

/-- A computation on the machine. -/
def Run (α : Type) : Type := Machine → Result α

namespace Run

variable {α β : Type}

/-- End with a value. -/
@[inline] protected def pure (a : α) : Run α := fun m => .done a m

/-- Run a computation, then the one its value leads to. -/
@[inline] protected def bind (x : Run α) (f : α → Run β) : Run β := fun m =>
  match x m with
  | .done a m => f a m
  | .fault e m => .fault e m
  | .exhausted => .exhausted

@[always_inline] instance : Monad Run where
  pure := Run.pure
  bind := Run.bind

/-- Stop at a token of the running code. The fault belongs to the source unit of that code. -/
@[inline] def stop (token : Token) (cause : Cause) : Run α := fun m =>
  .fault ((token.diagnose cause).inFile m.context.file) m

/-- Stop with a runtime fault at a token of the running code. -/
@[inline] def fail (token : Token) (e : RuntimeFault) : Run α := stop token (.runtime e)

/-- The value, or the fault at a token. -/
@[inline] def ofExcept (token : Token) : Except RuntimeFault α → Run α
  | .ok a => pure a
  | .error e => fail token e

end Run

end Offside
