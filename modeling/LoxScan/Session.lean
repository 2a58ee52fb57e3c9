import LoxScan.Report.Log
import LoxScan.Source.Scan
import LoxScan.Stream.Feed

/-!
# Scanning sessions

A session prints the tokens of the texts it is given to one writer and keeps a log of their errors
on another.  Each run flushes the log before it prints anything, so a session that cannot deliver
its reports prints no tokens.  At the prompt every line is a text of its own: its errors, and a
line that is not text at all, are reported and then forgotten.

The lines of an input are read one at a time, each only when the one before it has been answered, so
a session that ends early leaves the rest of its input unread.
-/

namespace LoxScan

structure Session where
  out : Writer
  log : Log
deriving DecidableEq, Repr

namespace Session

/-- How a run falls short.  Scan errors have been logged by the time they are returned. -/
inductive RunError where
  | io (error : IoError)
  | scan (errors : List LexicalError)
deriving DecidableEq, Repr

def RunError.message : RunError → String
  | io error => error.message
  | scan errors => toString errors.length ++ " scan error(s)"

def start (out err : Writer) : Session := ⟨out, Log.ofWriter err⟩

/-- Number of reports since the last prompt entry, or since the start. -/
def reported (s : Session) : Nat := s.log.reported

/-- Shows text on the output. -/
def print (s : Session) (text : String) : Session × Except IoError Unit :=
  let (out, result) := s.out.write (Text.Utf8.encode text)
  ({ s with out := out }, result)

def flushLog (s : Session) : Session × Except IoError Unit :=
  let (log, result) := s.log.flush
  ({ s with log := log }, result)

/-- Scans one text. -/
def run (s : Session) (source : String) : Session × Except RunError Unit :=
  let scan := Scan.ofText source
  match { s with log := s.log.reportAll scan.reports }.flushLog with
  | (s, .error error) => (s, .error (.io error))
  | (s, .ok ()) =>
    match s.print scan.dump with
    | (s, .error error) => (s, .error (.io error))
    | (s, .ok ()) => (s, if scan.errors.isEmpty then .ok () else .error (.scan scan.errors))

/-- Scans what was read of a file, if it could be read and is text. -/
def runFile (s : Session) (contents : Except IoError (List UInt8)) :
    Session × Except RunError Unit :=
  match contents.bind Feed.decodeLine with
  | .error error => (s, .error (.io error))
  | .ok source => s.run source

def prompt (s : Session) : Session × Except IoError Unit := s.print "> "

/-- Reports what is wrong with an entry that is not text. -/
def reject (s : Session) (error : IoError) : Session × Except IoError Unit :=
  { s with log := s.log.report ⟨1, error.message⟩ }.flushLog

/-- Scan errors do not end a prompt session and neither does an entry that is not text; whatever
else goes wrong does. -/
def enter (s : Session) : Entry → Session × Except IoError Unit
  | .ok line =>
    match s.run line with
    | (s, .error (.io error)) => (s, .error error)
    | (s, _) => (s, .ok ())
  | .error error => if error.kind = .invalidData then s.reject error else (s, .error error)

/-- Takes one entry, forgets its errors, and prompts for the next one. -/
def answer (s : Session) (entry : Entry) : Session × Except IoError Unit :=
  match s.enter entry with
  | (s, .error error) => (s, .error error)
  | (s, .ok ()) => { s with log := s.log.reset }.prompt

def runEntries (s : Session) : List Entry → Session × Except IoError Unit
  | [] => (s, .ok ())
  | entry :: rest =>
    match s.answer entry with
    | (s, .error error) => (s, .error error)
    | (s, .ok ()) => s.runEntries rest

/-- Prompts for each line of the feed and once more at its end. -/
def runPrompt (s : Session) (feed : Feed) : Session × Except IoError Unit :=
  match s.prompt with
  | (s, .error error) => (s, .error error)
  | (s, .ok ()) => s.runEntries feed.entries

/-- Delivers what is left of the log. -/
def finish (s : Session) : Session × Except IoError Unit :=
  let (log, result) := s.log.close
  ({ s with log := log }, result.map fun _ ↦ ())

/-- Answers the lines of an input until it ends or something goes wrong. -/
def answerLines (s : Session) (input : List Delivery) : Session × Except IoError Unit :=
  match _h : Reader.readLine? [] input with
  | none => (s, .ok ())
  | some (line, left) =>
    match s.answer (line.bind Feed.decodeLine) with
    | (s, .error error) => (s, .error error)
    | (s, .ok ()) => s.answerLines left
termination_by Reader.remaining input
decreasing_by exact Reader.remaining_lt _h

/-- Prompts for each line of the input and once more at its end. -/
def runInput (s : Session) (input : List Delivery) : Session × Except IoError Unit :=
  match s.prompt with
  | (s, .error error) => (s, .error error)
  | (s, .ok ()) => s.answerLines input

end Session

end LoxScan
