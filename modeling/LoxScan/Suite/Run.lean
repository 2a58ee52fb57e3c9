import LoxScan.Suite.Verdict
import LoxScan.Suite.Walk

/-!
# Suite runs

A suite run takes the test files below a directory one after the other, runs the program under
test on each, and shows the failures.  A line with the state of the counters stands at the bottom
of the screen and is erased before anything else is shown.  A file that cannot be read ends the
run, and nothing of it is counted.  Every directory of a tree can be listed, so a walk has no errors
of its own.  A screen shows styled text, and one control sequence erases the line above the cursor.
-/

namespace LoxScan.Suite

namespace Screen

inductive Colour where
  | red
  | green
  | yellow
  | blue
deriving DecidableEq, Repr

namespace Colour

def code : Colour → String
  | red => "31"
  | green => "32"
  | yellow => "33"
  | blue => "34"

/-- Colours the text if colours are wanted at all. -/
def paint (colour : Colour) (colours : Bool) (text : String) : String :=
  if colours then "\x1b[" ++ colour.code ++ "m" ++ text ++ "\x1b[0m" else text

end Colour

/-- Up one line, to its beginning, erase it, and once down and up again. -/
def eraseLineAbove : String := "\x1b[1A\r\x1b[2K\x1b[1B\x1b[1A"

end Screen

/-- What to run: the program under test, the directory with the test files, and the beginning
that the paths of the wanted files have when they are seen from there. -/
structure Plan where
  binary : String
  directory : String
  filter : Option String
deriving DecidableEq, Repr

/-- Starts a program on a path and waits for its end. -/
abbrev Launcher := String → String → Except IoError Outcome

inductive RunError where
  | badPattern (error : PathPattern.Error)
  | io (error : IoError)
deriving DecidableEq, Repr

namespace RunError

def kind : RunError → IoError.Kind
  | badPattern _ => .invalidInput
  | io error => error.kind

def message : RunError → String
  | badPattern error => error.message
  | io error => error.message

end RunError

/-- Each counter starts again at zero after 2^32 - 1. -/
structure Counters where
  passed : UInt32
  failed : UInt32
  skipped : UInt32
  expectations : UInt32
deriving DecidableEq, Repr

namespace Counters

def zero : Counters := ⟨0, 0, 0, 0⟩

/-- Counts a file that is a test, by the failures it had. -/
def count (c : Counters) (e : Expectations) (failures : List Failure) : Counters :=
  let c := { c with expectations := c.expectations + e.count }
  if failures.isEmpty then { c with passed := c.passed + 1 } else { c with failed := c.failed + 1 }

def skip (c : Counters) : Counters := { c with skipped := c.skipped + 1 }

/-- The line at the bottom of the screen, which names the file that comes next. -/
def stateLine (c : Counters) (colours : Bool) (path : String) : String :=
  "Passed: " ++ Screen.Colour.green.paint colours (toString c.passed) ++
    " Failed: " ++ Screen.Colour.red.paint colours (toString c.failed) ++
    " Skipped: " ++ Screen.Colour.yellow.paint colours (toString c.skipped) ++
    " (" ++ path ++ ")\n"

def summary (c : Counters) (colours : Bool) : String :=
  let passed := Screen.Colour.green.paint colours (toString c.passed)
  if c.failed = 0 then
    "All " ++ passed ++ " tests passed (" ++ toString c.expectations ++ " expectations).\n"
  else
    passed ++ " tests passed. " ++ Screen.Colour.red.paint colours (toString c.failed) ++
      " tests failed.\n"

end Counters

/-- The counters and everything that has been shown. -/
structure RunState where
  counters : Counters
  shown : String
deriving DecidableEq, Repr

namespace RunState

def showing (s : RunState) (text : String) : RunState := { s with shown := s.shown ++ text }

end RunState

/-- What a failed test leaves on the screen. -/
def failureBlock (colours : Bool) (path : String) (failures : List Failure) : String :=
  Screen.Colour.red.paint colours "FAIL" ++ ": " ++ path ++ "\n\n" ++
    String.join (failures.map fun failure ↦
      "\t" ++ Screen.Colour.blue.paint colours failure.message ++ "\n") ++ "\n"

namespace Plan

def pattern (p : Plan) : String :=
  if p.directory = "" ∨ p.directory.toList.getLast? = some '/' then p.directory ++ "**/*.lox"
  else p.directory ++ "/**/*.lox"

def accepts (p : Plan) (path : String) : Bool :=
  match p.filter with
  | none => true
  | some wanted => wanted.toList.isPrefixOf (RelativePath.between p.directory path).toList

end Plan

/-- What a suite run depends on besides its plan. -/
structure Surroundings where
  read : String → Except IoError (List UInt8)
  launch : Launcher
  colours : Bool

namespace RunState

/-- Runs one test file that is wanted. -/
def runTest (s : RunState) (w : Surroundings) (binary path : String) :
    RunState × Except IoError Unit :=
  let s := s.showing (Screen.eraseLineAbove ++ s.counters.stateLine w.colours path)
  match Expectations.ofFile (w.read path) with
  | (_, .error error) => (s, .error error)
  | (_, .ok false) => ({ s with counters := s.counters.skip }, .ok ())
  | (expectations, .ok true) =>
    let failures := Verdict.ofRun expectations binary (w.launch binary path)
    let s := { s with counters := s.counters.count expectations failures }
    if failures.isEmpty then (s, .ok ())
    else (s.showing (Screen.eraseLineAbove ++ failureBlock w.colours path failures ++ "\n"), .ok ())

def runTests (s : RunState) (w : Surroundings) (binary : String) :
    List String → RunState × Except IoError Unit
  | [] => (s, .ok ())
  | path :: rest =>
    match s.runTest w binary path with
    | (s, .error error) => (s, .error error)
    | (s, .ok ()) => s.runTests w binary rest

end RunState

/-- Runs the wanted files among the given ones.  The result is whether no test failed. -/
def Plan.runPaths (p : Plan) (w : Surroundings) (paths : List String) :
    RunState × Except IoError Bool :=
  match RunState.runTests ⟨Counters.zero, "\n"⟩ w p.binary (paths.filter p.accepts) with
  | (s, .error error) => (s, .error error)
  | (s, .ok ()) =>
    (s.showing (Screen.eraseLineAbove ++ s.counters.summary w.colours),
      .ok (s.counters.failed == 0))

/-- Runs the files of a tree that the plan's pattern describes. -/
def Plan.run (p : Plan) (w : Surroundings) (tree : FileTree) :
    RunState × Except RunError Bool :=
  match PathPattern.ofText p.pattern with
  | .error error => (⟨Counters.zero, ""⟩, .error (.badPattern error))
  | .ok pattern =>
    let (s, result) := p.runPaths w (pattern.paths tree)
    (s, result.mapError .io)

end LoxScan.Suite
