import LoxScan.CommandLine.Arguments
import LoxScan.Session
import LoxScan.Stream.Writer

/-!
# The scanning command

The command scans the script it is given, or the lines typed at its prompt, and prints the
tokens.  Its exit code tells a wrong command line, a text with errors, and a failed input or
output apart.
-/

namespace LoxScan.CommandLine.ScanCommand

def helpFlag : Flag := ⟨"help", 'h'⟩

def versionFlag : Flag := ⟨"version", 'V'⟩

/-- One script at most.  It is a path, so it may not be empty. -/
def grammar : Grammar := ⟨[helpFlag, versionFlag], [], false⟩

inductive Request where
  | help
  | version
  | refused
  | script (path : String)
  | prompt
deriving DecidableEq, Repr

def Request.ofArguments (arguments : List String) : Request :=
  match grammar.parse arguments with
  | .ok parsed =>
    match parsed.plain with
    | some path => script path
    | none => prompt
  | .error (.flag name) => if name = helpFlag.name then help else version
  | .error (.problem _) => refused

def usage : String := "Usage: rox [script]\n"

def versionText : String := "rox 0.1.0\n"

def helpText : String :=
  "Scans a Lox script, or each line typed at the prompt, and prints its tokens\n\n" ++
  "Usage: rox [SCRIPT]\n\n" ++
  "Arguments:\n" ++
  "  [SCRIPT]  Script to scan. Starts an interactive prompt when omitted\n\n" ++
  "Options:\n" ++
  "  -h, --help     Print help\n" ++
  "  -V, --version  Print version\n"

def usageCode : Int := 64

def scanErrorCode : Int := 65

def ioErrorCode : Int := 74

/-- The session of a command, whose streams take everything. -/
def newSession : Session := Session.start (Writer.withLimit none) (Writer.withLimit none)

/-- What a session has written, with a last line on the error stream and an exit code. -/
def outcomeOf (s : Session) (lastWords : String) (code : Int) : Outcome :=
  ⟨s.out.written, s.log.writer.written ++ Text.Utf8.encode lastWords, some code⟩

/-- Scans a script, given what could be read of it. -/
def scriptOutcome (path : String) (contents : Except IoError (List UInt8)) : Outcome :=
  match newSession.runFile contents with
  | (s, .ok ()) => outcomeOf s "" 0
  | (s, .error (.scan _)) => outcomeOf s "" scanErrorCode
  | (s, .error (.io error)) => outcomeOf s (path ++ ": " ++ error.message ++ "\n") ioErrorCode

/-- Errors in the entries are no reason for a code of their own. -/
def promptOutcome (input : Feed) : Outcome :=
  match newSession.runPrompt input with
  | (s, .ok ()) => outcomeOf s "" 0
  | (s, .error error) => outcomeOf s (error.message ++ "\n") ioErrorCode

def textOutcome (text : String) (code : Int) : Outcome :=
  ⟨Text.Utf8.encode text, [], some code⟩

/-- Runs the command, given what a path can be read as and what the prompt is fed. -/
def run (arguments : List String) (read : String → Except IoError (List UInt8)) (input : Feed) :
    Outcome :=
  match Request.ofArguments arguments with
  | .help => textOutcome helpText 0
  | .version => textOutcome versionText 0
  | .refused => textOutcome usage usageCode
  | .script path => scriptOutcome path (read path)
  | .prompt => promptOutcome input

end LoxScan.CommandLine.ScanCommand
