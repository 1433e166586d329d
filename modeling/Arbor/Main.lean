/-
The command line. Only the files that the arguments name are read; everything else is decided by `Command.run`.
-/
import Arbor.Command.Run

namespace Arbor

open Command

/-- the bytes under a file name -/
def readFile (name : String) : IO (Except ReadProblem ByteArray) := do
  try
    return .ok (← IO.FS.readBinFile name)
  catch e =>
    match e with
    | .inappropriateType (some _) .. => return .error .notADirectory
    | .inappropriateType none .. => return .error .directory
    | .invalidArgument .. => return .error .nameTooLong
    | .permissionDenied .. => return .error .denied
    | _ => return .error .missing

/-- the whole of standard input -/
partial def readInput (stream : IO.FS.Stream) (acc : ByteArray) : IO ByteArray := do
  let chunk ← stream.read 65536
  if chunk.isEmpty then return acc else readInput stream (acc ++ chunk)

/-- what can be read under the names of an invocation -/
def gather (i : Invocation) : IO Sources := do
  let names := i.schema.toList ++ [i.file]
  let files ← (names.filter fun name => name != "-").mapM fun name => return (name, ← readFile name)
  let input ← if names.contains "-" then readInput (← IO.getStdin) ByteArray.empty else pure ByteArray.empty
  return ⟨fun name => (files.lookup name).getD (.error .missing), input⟩

end Arbor

/-- run the program on the arguments and leave its outcome behind -/
def main (args : List String) : IO UInt32 := do
  let terminals : Arbor.Command.Terminals := ⟨← (← IO.getStdout).isTty, ← (← IO.getStderr).isTty⟩
  let sources ← match Arbor.Command.invocation terminals args with
    | .ok i => Arbor.gather i
    | .error _ => pure ⟨fun _ => .error .missing, ByteArray.empty⟩
  let outcome := Arbor.Command.run terminals args sources
  IO.print outcome.output
  IO.eprint outcome.report
  return outcome.status.toUInt32
