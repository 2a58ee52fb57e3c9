import LoxScan.Stream.Feed
import LoxScan.Suite.Mark
import LoxScan.Text.OrderedSet

/-!
# Expectations

The expectations of a test file are collected line by line.  Each line states at most one of them,
and collecting stops early at a line that cannot be read and at one that says the file is no test;
what was collected before the stop remains.  Errors are a set.
-/

namespace LoxScan.Suite

structure ExpectedOutput where
  line : Nat
  text : String
deriving DecidableEq, Repr

/-- What one line of a test file states. -/
inductive Statement where
  | exclusion
  | output (text : String)
  | errorAt (message : LineMessage)
  | errorHere (message : String)
  | nothing
deriving DecidableEq, Repr

namespace Statement

/-- A line that carries several marks counts for the first of them in this order. -/
def ofLine (line : String) : Statement :=
  if (Mark.exclusion? line).isSome then exclusion
  else if let some found := Mark.expectedOutput? line then output found.value
  else if let some found := Mark.expectedErrorAt? line then errorAt found.value
  else if let some found := Mark.expectedError? line then errorHere found.value
  else nothing

end Statement

/-- The count starts again at zero after 2^32 - 1. -/
structure Expectations where
  outputs : List ExpectedOutput
  errorSet : Text.OrderedSet
  exitCode : Int
  count : UInt32
deriving DecidableEq, Repr

namespace Expectations

def empty : Expectations := ⟨[], .empty, 0, 0⟩

/-- The exit code of a program that finds its input malformed. -/
def malformedCode : Int := 65

/-- The expected errors in ascending order. -/
def errors (e : Expectations) : List String := e.errorSet.toList

def addOutput (e : Expectations) (line : Nat) (text : String) : Expectations :=
  { e with outputs := e.outputs ++ [⟨line, text⟩], count := e.count + 1 }

def addError (e : Expectations) (m : LineMessage) : Expectations :=
  { e with
    errorSet := e.errorSet.insert m.display
    exitCode := malformedCode
    count := e.count + 1 }

def add (e : Expectations) (line : Nat) : Statement → Expectations
  | .output text => e.addOutput line text
  | .errorAt message => e.addError message
  | .errorHere message => e.addError ⟨toString line, message⟩
  | .exclusion => e
  | .nothing => e

/-- Collects from the lines that follow, the first of which has the given number.  The result is
whether the file is a test. -/
def collect (e : Expectations) (line : Nat) : List Entry → Expectations × Except IoError Bool
  | [] => (e, .ok true)
  | .error error :: _ => (e, .error error)
  | .ok text :: rest =>
    match Statement.ofLine text with
    | .exclusion => (e, .ok false)
    | statement => (e.add line statement).collect (line + 1) rest

/-- The expectations of a file, given what could be read of it. -/
def ofFile (contents : Except IoError (List UInt8)) : Expectations × Except IoError Bool :=
  match contents with
  | .error error => (empty, .error error)
  | .ok bytes => empty.collect 1 (Feed.ofBytes bytes).entries

end Expectations

end LoxScan.Suite
