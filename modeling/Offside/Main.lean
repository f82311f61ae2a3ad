import Offside.Command
import Std.Time.DateTime.Timestamp

/-!
# The program

`offside run PATH` runs the file at `PATH`.
-/

namespace Offside

/-- A refusal of the system by its code, which is the same reason when it is given as a negative
number. -/
def ReadError.ofCode (code : UInt32) (details : String) : ReadError :=
  .refused details.capitalize (if code < 0x80000000 then code else 0 - code).toNat

/-- What the system says when it refuses. -/
def ReadError.ofSystem : IO.Error → ReadError
  | .noFileOrDirectory _ code details => ofCode code details
  | .inappropriateType _ code details => ofCode code details
  | .permissionDenied _ code details => ofCode code details
  | .invalidArgument _ code details => ofCode code details
  | .resourceExhausted _ code details => ofCode code details
  | .noSuchThing _ code details => ofCode code details
  | .otherError code details => ofCode code details
  | e => .refused e.toString 0

/-- The bytes of the file at a path. -/
def readBytes (path : String) : IO (Except ReadError ByteArray) := do
  try return .ok (← IO.FS.readBinFile path)
  catch e => return .error (.ofSystem e)

/-- A clock that starts now. Each reading is taken one millisecond after the one before. -/
def clockFromNow : IO Clock := do
  let now ← Std.Time.Timestamp.now
  let start := now.toMillisecondsSinceUnixEpoch.val.toNat
  return fun reading => Number.ofNat (start + reading)

/-- Run the file at a path. -/
def runFile (path : String) : IO UInt32 := do
  let setting : Setting := ⟨Session.ampleFuel, ← clockFromNow, none⟩
  let outcome := Command.run setting path (← readBytes path)
  try
    IO.print outcome.output
    (← IO.getStdout).flush
  catch e =>
    IO.eprint (Command.complaint "could not flush stdout" (ReadError.ofSystem e).message)
    return Exit.unflushed.code.toUInt32
  IO.eprint outcome.errors
  return outcome.exit.code.toUInt32

end Offside

/-- The command line. -/
def main (args : List String) : IO UInt32 := do
  match args with
  | ["run", path] => Offside.runFile path
  | _ =>
    IO.eprintln "usage: offside run PATH"
    return 2
