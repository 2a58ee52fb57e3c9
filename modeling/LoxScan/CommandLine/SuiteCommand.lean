import LoxScan.CommandLine.ScanCommand
import LoxScan.FileTree.Basic
import LoxScan.Suite.Run
import LoxScan.Text.ControlSequence
import LoxScan.Text.Similarity

/-!
# The suite command

The command runs a suite of test files and ends with a code that says whether all of them passed.
-/

namespace LoxScan.CommandLine.SuiteCommand

open Suite (Plan Surroundings Launcher)

def helpFlag : Flag := ⟨"help", 'h'⟩

def binaryOption : String := "binary"

def suiteOption : String := "suite"

/-- The plain argument is the beginning of a path and may be empty. -/
def grammar : Grammar := ⟨[helpFlag], [binaryOption, suiteOption], true⟩

def defaultBinary : String := "./target/release/rox"

def defaultSuite : String := "samples"

def planOf (a : Arguments) : Plan :=
  { binary := (a.value? binaryOption).getD defaultBinary
    directory := (a.value? suiteOption).getD defaultSuite
    filter := a.plain }

def parse (arguments : List String) : Except Stop Plan := (grammar.parse arguments).map planOf

def usageStart : String := "Usage: rox-tester"

def usage : String := usageStart ++ " [OPTIONS] [FILTER]"

def helpText : String :=
  "Runs the sample suite against the rox binary\n\n" ++
  usage ++ "\n\n" ++
  "Arguments:\n" ++
  "  [FILTER]  Only run tests whose path, relative to the suite directory, starts with this " ++
  "prefix\n\n" ++
  "Options:\n" ++
  "      --binary <BINARY>  The binary under test [default: " ++ defaultBinary ++ "]\n" ++
  "      --suite <SUITE>    Directory searched for `.lox` test files [default: " ++
  defaultSuite ++ "]\n" ++
  "  -h, --help             Print help\n"

/-- A flag or an option as it is shown, an option with its value in capitals. -/
def shownOption (name : String) : String :=
  "--" ++ name ++ (if grammar.options.contains name then " <" ++ name.toUpper ++ ">" else "")

/-- The usage as far as it concerns what was given. -/
def usageOf (given : Given) : String :=
  if given.isNothing then usage
  else
    usageStart ++ String.join (given.options.map fun name ↦ " " ++ shownOption name) ++
      (if given.plain then " <FILTER>" else " [FILTER]")

/-- The usage of a flag.  What may be given instead is shown if anything of it was. -/
def usageOfFlag (flag : String) (given : Given) : String :=
  usageStart ++ " --" ++ flag ++ " " ++
    if given.isNothing then "[FILTER]"
    else "<" ++ String.intercalate "|" ("FILTER" :: grammar.options.map shownOption) ++ ">"

/-- An argument as it is shown in a message. -/
def shownArgument (argument : String) : String := Text.ControlSequence.strip argument

def unexpected (argument : String) : String :=
  "unexpected argument '" ++ shownArgument argument ++ "' found\n\n"

def plainTip (argument : String) : String :=
  "  tip: to pass '" ++ shownArgument argument ++ "' as a value, use '-- " ++
    shownArgument argument ++ "'\n\n"

def similarTip (name : String) : String :=
  "  tip: a similar argument exists: '--" ++ name ++ "'\n\n"

/-- What is said about a name that is not known.  A similar name that is known is taken as what
was meant. -/
def unknownNameComplaint (name : String) (given : Given) : String :=
  let argument := "--" ++ name
  unexpected argument ++
    match Text.Similarity.closest? name grammar.names with
    | some similar => similarTip similar ++ usageOf (given.withOption similar)
    | none => plainTip argument ++ usageOf given

def complaint : Problem → String
  | .unknownName name given => unknownNameComplaint name given
  | .unknownLetter letter =>
    let argument := String.ofList ['-', letter]
    unexpected argument ++ plainTip argument ++ usage
  | .surplusArgument argument => unexpected argument ++ usage
  | .missingValue name =>
    "a value is required for '" ++ shownOption name ++ "' but none was supplied"
  | .emptyArgument => "a value is required for '[FILTER]' but none was supplied"
  | .repeatedOption name =>
    "the argument '" ++ shownOption name ++ "' cannot be used multiple times\n\n" ++ usage
  | .unneededValue flag value given =>
    "unexpected value '" ++ shownArgument value ++ "' for '--" ++ flag ++
      "' found; no more were expected\n\n" ++ usageOfFlag flag given

def refusal (p : Problem) : String :=
  "error: " ++ complaint p ++ "\n\nFor more information, try '--help'.\n"

/-- A record as it is shown for diagnosis. -/
def shownRecord (name : String) (fields : List (String × String)) : String :=
  name ++ " \x7b " ++
    String.intercalate ", " (fields.map fun (field, value) ↦ field ++ ": " ++ value) ++ " \x7d"

def quoted (text : String) : String := "\"" ++ text ++ "\""

/-- An error as it is shown for diagnosis, with its kind and what it consists of. -/
def shownError : Suite.RunError → String
  | .badPattern error =>
    let inner := shownRecord "PatternError"
      [("pos", toString error.position), ("msg", quoted error.problem.description)]
    shownRecord "Custom" [("kind", IoError.Kind.invalidInput.name), ("error", inner)]
  | .io (.refused r) =>
    shownRecord "Os"
      [("code", toString r.code), ("kind", r.kind.name), ("message", quoted r.description)]
  | .io (.delivered kind text) =>
    shownRecord "Custom" [("kind", kind.name), ("error", quoted text)]
  | .io error =>
    shownRecord "Error" [("kind", error.kind.name), ("message", quoted error.message)]

def refusedCode : Int := 2

def failedCode : Int := 1

/-- Runs the command in a tree, given how programs are started there. -/
def run (arguments : List String) (tree : FileTree) (launch : Launcher) : Outcome :=
  match parse arguments with
  | .error (.flag _) => ScanCommand.textOutcome helpText 0
  | .error (.problem p) => ⟨[], Text.Utf8.encode (refusal p), some refusedCode⟩
  | .ok plan =>
    let (s, result) := plan.run ⟨FileTree.read tree, launch, false⟩ tree
    let stdout := Text.Utf8.encode s.shown
    match result with
    | .ok passed => ⟨stdout, [], some (if passed then 0 else failedCode)⟩
    | .error error =>
      ⟨stdout, Text.Utf8.encode ("Error: " ++ shownError error ++ "\n"), some failedCode⟩

/-- Starts a program of the tree on a path.  A suite run may start the suite command again, down
to the given depth, below which it ends without a code. -/
def launchWithin (tree : FileTree) : Nat → Launcher
  | depth, binary, path => do
    if FileTree.hasNul path then throw .nulInArgument
    match ← FileTree.program tree binary with
    | .scripted stdout stderr code => return ⟨stdout, stderr, code.map fun code ↦ code.toNat⟩
    | .scanner => return ScanCommand.run [path] (FileTree.read tree) []
    | .suiteRunner =>
      match depth with
      | 0 => return ⟨[], [], none⟩
      | depth + 1 => return run [path] tree (launchWithin tree depth)

/-- Starts programs of the tree.  A suite run gives a program nothing but the path of a test file,
and only a path that spells an option can make the suite command start itself again, so runs do
not nest three deep unless the program that is run by default is the suite command. -/
def launch (tree : FileTree) : Launcher := launchWithin tree 3

end LoxScan.CommandLine.SuiteCommand
