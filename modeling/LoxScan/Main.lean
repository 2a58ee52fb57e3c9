import LoxScan.CommandLine.ScanCommand

/-!
# The scanning program

The scanning command with the file system, the standard streams and the exit code of a process
around it.  Everything that is decided is decided by the command; this layer reads, shows what a
session has written, and reads on.
-/

namespace LoxScan.Main

open CommandLine.ScanCommand (ioErrorCode)

/-- The system's answer to a read that failed.  Its number may come with either sign. -/
def readError : IO.Error → IoError
  | .noFileOrDirectory _ _ _ => .refused .missing
  | .permissionDenied _ _ _ => .refused .forbidden
  | .inappropriateType _ code _ =>
    .refused (if code = 20 ∨ code = -20 then .notDirectory else .directory)
  | error@(.invalidArgument _ code _) =>
    if code = 36 ∨ code = -36 then .refused .nameTooLong else .delivered .other (toString error)
  | error => .delivered .other (toString error)

def readScript (path : String) : IO (Except IoError (List UInt8)) := do
  try
    let contents ← IO.FS.readBinFile path
    return .ok contents.toList
  catch error => return .error (readError error)

def showBytes (stream : IO.FS.Stream) (bytes : List UInt8) : IO Unit := do
  stream.write ⟨bytes.toArray⟩
  stream.flush

def showOutcome (o : Outcome) : IO UInt32 := do
  showBytes (← IO.getStderr) o.stderr
  showBytes (← IO.getStdout) o.stdout
  return UInt32.ofInt (o.code.getD 0)

/-- Shows what the session has written and lets it go on with empty writers. -/
def release (s : Session) : IO Session := do
  showBytes (← IO.getStderr) s.log.writer.written
  showBytes (← IO.getStdout) s.out.written
  let empty := Writer.withLimit none
  return { s with out := empty, log := { s.log with writer := empty } }

/-- Reads up to the end of a line, which belongs to it, or of the input.  The bytes read so far
are given in reverse. -/
partial def readLine (input : IO.FS.Stream) (line : List UInt8) : IO (List UInt8) := do
  match (← input.read 1).toList with
  | [] => return line.reverse
  | b :: _ => if b = 0x0A then return (b :: line).reverse else readLine input (b :: line)

/-- Answers one line after the other until the input ends. -/
partial def converse (input : IO.FS.Stream) (s : Session) : IO UInt32 := do
  match (Feed.ofBytes (← readLine input [])).entries with
  | [] => return 0
  | entry :: _ =>
    let (s, result) := s.answer entry
    let s ← release s
    match result with
    | .ok () => converse input s
    | .error error =>
      (← IO.getStderr).putStrLn error.message
      return UInt32.ofInt ioErrorCode

end LoxScan.Main

open LoxScan LoxScan.Main LoxScan.CommandLine in
def main (arguments : List String) : IO UInt32 := do
  match ScanCommand.Request.ofArguments arguments with
  | .script path => showOutcome (ScanCommand.scriptOutcome path (← readScript path))
  | .prompt => converse (← IO.getStdin) (← release ScanCommand.newSession.prompt.1)
  | _ => showOutcome (ScanCommand.run arguments (fun _ ↦ .error (.refused .missing)) [])
