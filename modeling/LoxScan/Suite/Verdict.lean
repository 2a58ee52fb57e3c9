import LoxScan.Stream.Writer
import LoxScan.Suite.Expectation
import LoxScan.Text.Basic

/-!
# Verdicts

What a program did is compared with the expectations of a test.  Its streams are read as text
whatever they hold, and every difference is a failure: on the error stream, in the exit code, in
the output line by line.  A test passes iff there is none.
-/

namespace LoxScan.Suite

inductive Failure where
  | notStarted (binary : String) (error : IoError)
  | unexpectedError (line : String)
  | unexpectedOutput (line : String)
  | truncated (count : Int32)
  | missingError (error : String)
  | wrongCode (expected : Int) (actual : Option Int)
  | wrongOutput (expected : ExpectedOutput) (actual : String)
  | surplusOutput (actual : String)
  | missingOutput (expected : ExpectedOutput)
deriving DecidableEq, Repr

namespace Failure

def showCode : Option Int → String
  | some code => "Some(" ++ toString code ++ ")"
  | none => "None"

def message : Failure → String
  | notStarted binary error => "Failed to run " ++ binary ++ ": " ++ error.message
  | unexpectedError line => "Unexpected error: " ++ line
  | unexpectedOutput line => "Unexpected output on stderr: " ++ line
  | truncated count => "(truncated " ++ toString count ++ " more...)"
  | missingError error => "Missing expected error: " ++ error
  | wrongCode expected actual =>
    "Expected return code " ++ toString expected ++ " and got " ++ showCode actual ++ "."
  | wrongOutput expected actual =>
    "Expected output '" ++ expected.text ++ "' on line " ++ toString expected.line ++
      " and got '" ++ actual ++ "'."
  | surplusOutput actual => "Got output '" ++ actual ++ "' when none was expected."
  | missingOutput expected =>
    "Missing expected output '" ++ expected.text ++ "' on line " ++ toString expected.line ++ "."

end Failure

namespace Verdict

/-- The error that a line of the error stream reports. -/
def reported? (line : String) : Option String :=
  (Mark.diagnostic? line).map fun found ↦ found.value.display

/-- Only so many unexpected lines are shown one by one. -/
def shownLines : Int32 := 10

/-- What is known after some lines of the error stream: the expected errors that they report, the
number of unexpected lines, and what is shown of these.  The number goes on at -2^31 after
2^31 - 1. -/
structure ErrorCheck where
  found : Text.OrderedSet
  unexpected : Int32
  shown : List Failure
deriving DecidableEq, Repr

namespace ErrorCheck

def start : ErrorCheck := ⟨.empty, 0, []⟩

/-- Counts an unexpected line, and shows it if few have been counted. -/
def complain (c : ErrorCheck) (failure : Failure) : ErrorCheck :=
  { c with
    unexpected := c.unexpected + 1
    shown := if c.unexpected < shownLines then c.shown ++ [failure] else c.shown }

/-- A line is unexpected if it reports an error that is not expected, or if it reports nothing
and is not empty. -/
def read (expected : Text.OrderedSet) (c : ErrorCheck) (line : String) : ErrorCheck :=
  match reported? line with
  | some error =>
    if error ∈ expected then { c with found := c.found.insert error }
    else c.complain (.unexpectedError line)
  | none => if line = "" then c else c.complain (.unexpectedOutput line)

/-- The unexpected lines, with a count of those not shown, and the expected errors that are
missing. -/
def failures (expected : Text.OrderedSet) (c : ErrorCheck) : List Failure :=
  c.shown ++
    (if c.unexpected > shownLines then [.truncated (c.unexpected - shownLines)] else []) ++
    (expected.difference c.found).toList.map .missingError

end ErrorCheck

def errorFailures (expected : Text.OrderedSet) (lines : List String) : List Failure :=
  (lines.foldl (ErrorCheck.read expected) ErrorCheck.start).failures expected

def codeFailures (expected : Int) (actual : Option Int) : List Failure :=
  if actual = some expected then [] else [.wrongCode expected actual]

def outputFailures : List ExpectedOutput → List String → List Failure
  | [], lines => lines.map .surplusOutput
  | expected, [] => expected.map .missingOutput
  | expected :: rest, line :: lines =>
    (if expected.text = line then [] else [.wrongOutput expected line]) ++
      outputFailures rest lines

def linesOf (stream : List UInt8) : List String := Text.Split.lines (Text.Utf8.decodeLossy stream)

/-- Every way in which an outcome falls short of the expectations. -/
def failures (e : Expectations) (outcome : Outcome) : List Failure :=
  errorFailures e.errorSet (linesOf outcome.stderr) ++ codeFailures e.exitCode outcome.code ++
    outputFailures e.outputs (linesOf outcome.stdout)

/-- A program that cannot be started fails for that reason only. -/
def ofRun (e : Expectations) (binary : String) (run : Except IoError Outcome) : List Failure :=
  match run with
  | .error error => [.notStarted binary error]
  | .ok outcome => failures e outcome

end Verdict

end LoxScan.Suite
