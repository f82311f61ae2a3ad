import Offside.Folder
import Offside.Report
import Offside.Session

/-!
# The command

Running a file as a program of its own: what is written to the two streams, and the code the command
ends with. Nothing runs if the file cannot be read, if its bytes are not a text, or if the text is
not a program. The codes tell the cases apart.

After a run the command flushes the output, before it looks at how the run ended. Every line that
was written is out by then, but of a line that was refused the output may hold a part back, and
refuse it once more. Then this is what the command complains about, and the diagnostics of the run
are lost. How much is held back is up to the output, so whether it refuses again is given to the
command. The stream for errors is taken to accept everything.

* `Exit`: how the command ends;
* `Command.run`: the whole of it.
-/

namespace Offside

/-- How the command ends. -/
inductive Exit
  | success
  /-- The text is not a program. -/
  | invalid
  /-- The program was stopped while it ran. -/
  | stopped
  /-- There is no text to run. -/
  | unreadable
  /-- The output could not be flushed. -/
  | unflushed
  deriving DecidableEq, Repr

/-- The code that the command ends with. -/
def Exit.code : Exit → Nat
  | .success => 0
  | .invalid => 65
  | .stopped => 70
  | .unreadable => 74
  | .unflushed => 1

/-- What the command leaves behind. -/
structure Outcome where
  exit : Exit
  output : String
  /-- What is written to the stream for errors. -/
  errors : String
  deriving DecidableEq, Repr

namespace Command

/-- The end of the command after a run. -/
def exitOf : Ending → Exit
  | .success => .success
  | .failure errors => if errors.any fun e => e.cause.isRuntime then .stopped else .invalid
  | .exhausted => .stopped

/-- Whether a run was stopped because the output refused a line. -/
def refused (ending : Ending) : Bool := ending.errors.any fun e => e.cause matches .output _

/-- Why flushing the output fails after a run, if it does. The reason given is the one for which the
output refuses what it holds back of a line that was refused, if it holds any of it back. -/
def flushFailure (held : Option String) (ending : Ending) : Option String :=
  if refused ending then held else none

/-- What the command says when it fails itself. -/
def complaint (what reason : String) : String :=
  "error: " ++ what ++ "\n\nCaused by:\n    " ++ reason ++ "\n"

/-- The text of a file, if its bytes encode one. -/
def decode (bytes : ByteArray) : Except ReadError (List Char) :=
  match String.fromUTF8? bytes with
  | some text => .ok text.toList
  | none => .error .notText

/-- Run a text in a session of its own. -/
def runText (setting : Setting) (held : Option String) (text : List Char) : Outcome :=
  let (session, transcript) := Session.initial.run setting text
  match flushFailure held transcript.ending with
  | some reason => ⟨.unflushed, transcript.output, complaint "could not flush stdout" reason⟩
  | none =>
    ⟨exitOf transcript.ending, transcript.output,
      Report.render session.sources transcript.ending.errors⟩

/-- The end of the command if there is no text at a path. -/
def refuse (path : String) (e : ReadError) : Outcome :=
  ⟨.unreadable, "", complaint ("could not read file: " ++ path) e.message⟩

/-- Run the file at a path, given what reading it gave, and the reason for which the output refuses
what it holds back of a line that was refused. -/
def run (setting : Setting) (path : String) (contents : Except ReadError ByteArray)
    (held : Option String := none) : Outcome :=
  match contents.bind decode with
  | .ok text => runText setting held text
  | .error e => refuse path e

end Command

end Offside
