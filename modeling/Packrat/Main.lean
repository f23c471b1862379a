import Packrat.Command.Run

/-!
# The program

Reads what the command asks for, runs it, and writes its outcome.
-/

open Packrat

/-- All bytes that are left in a stream, behind those read so far. -/
partial def readRest (stream : IO.FS.Stream) (bytes : ByteArray) : IO ByteArray := do
  let more ← stream.read 65536
  if more.isEmpty then return bytes
  readRest stream (bytes ++ more)

/-- The bytes of an origin, or why they are not there. -/
def fetch : Origin → IO (Except ReadError ByteArray)
  | .standardInput => do
      let input ← IO.getStdin
      try
        return .ok (← readRest input .empty)
      catch error =>
        return .error (.other (toString error))
  | .file path => do
      try
        return .ok (← IO.FS.readBinFile path)
      catch
        | .noFileOrDirectory _ _ _ => return .error .notFound
        | .inappropriateType _ code _ =>
            return .error (if code = 21 then .isAFolder else .notAFolder)
        | .invalidArgument _ 36 _ => return .error .nameTooLong
        | error => return .error (.other (toString error))

def main (arguments : List String) : IO UInt32 := do
  let output ← IO.getStdout
  let errors ← IO.getStderr
  let origin? := (Command.ofArguments arguments).toOption.bind Command.origin?
  let content ←
    match origin? with
    | some origin => fetch origin
    | none => pure (.ok .empty)
  let onTerminal := (← output.isTty) && (← errors.isTty)
  let outcome := Command.execute arguments onTerminal fun _ => content
  output.putStr outcome.output
  errors.putStr outcome.errors
  return outcome.exit.toUInt32
