import Offside.Eval
import Offside.Grammar

/-!
# Sessions

A session runs one source text after another. Global variables persist from run to run, and so do
the texts, since a function defined by one run may fault in a later one. A text with a fault in it
is not run at all, and its faults are returned together; a fault of a running program is returned
alone and stops the run where it happened. Every diagnostic returned names the text it points into
by the number of the run.

* `Session.compile`: a program ready to run, or what is wrong with it;
* `Session.run`: one run.
-/

namespace Offside

/-- How a run ends. -/
inductive Ending
  | success
  | failure (errors : List Diagnostic)
  /-- The fuel did not last. -/
  | exhausted
  deriving DecidableEq, Repr

/-- The diagnostics that a run returns. -/
def Ending.errors : Ending → List Diagnostic
  | .failure errors => errors
  | _ => []

/-- What a run wrote, and how it ended. -/
structure Transcript where
  output : String
  ending : Ending
  deriving DecidableEq, Repr

/-- What a session keeps between runs. -/
structure Session where
  store : Store
  /-- The number of definitions of functions executed so far. -/
  definitions : Nat
  /-- The number of readings of the clock taken so far. -/
  readings : Nat
  /-- The texts of the runs so far, with their line endings normalized. -/
  sources : List (List Char)

/-- What surrounds a run. -/
structure Setting where
  fuel : Nat
  clock : Clock
  /-- The number of lines that can be written, if there is a limit. -/
  limit : Option Nat

/-- A program with the distances of its references. -/
structure Compiled where
  stmts : List Stmt
  scope : ScopeMap

namespace Session

/-- More fuel than a run gets through in a lifetime. -/
def ampleFuel : Nat := Nat.pow 2 60 - 1

/-- A session in which nothing has run. -/
def initial : Session := ⟨Store.initial, 0, 0, []⟩

/-- The names of the global variables. -/
def globals (s : Session) : Names := s.store.names Store.globals

/-- The program of a text, given the names of the global variables, or the faults of the first
phase that found any. -/
def compile (globals : Names) (text : List Char) : Except (List Diagnostic) Compiled :=
  match Grammar.read text with
  | .error errors => .error errors
  | .ok stmts =>
    let found := Scope.resolve globals stmts
    if found.errors.isEmpty then .ok ⟨stmts, ScopeMap.ofReferences found.references⟩
    else .error found.errors

/-- The machine at the start of a run. -/
def machine (s : Session) (setting : Setting) (scope : ScopeMap) (file : Nat) : Machine :=
  { store := s.store, definitions := s.definitions, sink := Sink.fresh setting.limit,
    clock := setting.clock, readings := s.readings, context := ⟨scope, file, 0⟩ }

/-- The session after a run that left a machine behind. -/
def keep (s : Session) (m : Machine) : Session :=
  { s with store := m.store, definitions := m.definitions, readings := m.readings }

/-- Run a program as the run with a given number. -/
def execute (s : Session) (setting : Setting) (program : Compiled) (file : Nat) :
    Session × Transcript :=
  match Eval.program setting.fuel program.stmts (s.machine setting program.scope file) with
  | .done _ m => (s.keep m, ⟨m.sink.text, .success⟩)
  | .fault e m => (s.keep m, ⟨m.sink.text, .failure [e]⟩)
  | .exhausted => (s, ⟨"", .exhausted⟩)

/-- Run a source text. -/
def run (s : Session) (setting : Setting) (source : List Char) : Session × Transcript :=
  let text := Text.normalizeNewlines source
  let file := s.sources.length
  let s := { s with sources := s.sources ++ [text] }
  match compile s.globals text with
  | .error errors => (s, ⟨"", .failure (errors.map (·.inFile file))⟩)
  | .ok program => s.execute setting program file

end Session

end Offside
