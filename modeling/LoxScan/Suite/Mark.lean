import LoxScan.Text.Basic

/-!
# Marks in lines

A test file states what it expects in comments, and a scanner states what is wrong in diagnostics.
Both are found anywhere in a line by a mark: the leftmost place at which the fixed parts of the
mark can be read counts, and the part that ends a mark runs to the end of its line.  A line
number is a run of decimal digits of any script, and it is kept as it is written.
-/

namespace LoxScan.Suite

/-- The place where a mark was found, by the characters it covers, and what it carries. -/
structure Found (α : Type) where
  whole : String
  value : α
deriving DecidableEq, Repr

/-- A message about a line whose number is kept as it was written. -/
structure LineMessage where
  number : String
  message : String
deriving DecidableEq, Repr

def LineMessage.display (m : LineMessage) : String := "[line " ++ m.number ++ "] " ++ m.message

namespace Mark

/-- Reads a mark at the front of a text and returns what follows it. -/
abbrev Reader (α : Type) := List Char → Option (α × List Char)

/-- What follows a fixed word at the front of a text. -/
def skip (word : String) (text : List Char) : Option (List Char) :=
  if word.toList.isPrefixOf text then some (text.drop word.length) else none

/-- The characters up to the end of the line. -/
def readLine (text : List Char) : String × List Char :=
  (String.ofList (text.takeWhile (· != '\n')), text.dropWhile (· != '\n'))

/-- A message begins with a fixed word, and the word belongs to it. -/
def readMessage : Reader String := fun text ↦
  (skip "Error" text).map fun _ ↦ readLine text

/-- At most one space before the expected text belongs to the mark. -/
def readOutput : Reader String := fun text ↦
  (skip "// expect:" text).map fun rest ↦ readLine ((skip " " rest).getD rest)

def readError : Reader String := fun text ↦ (skip "// " text).bind readMessage

/-- Reads `[line N] ` and a message. -/
def readLineMessage : Reader LineMessage := fun text ↦ do
  let rest ← skip "[line " text
  let number := rest.takeWhile Text.DecimalDigit.isDecimalDigit
  if number.isEmpty then none
  let (message, after) ← readMessage (← skip "] " (rest.drop number.length))
  return (⟨String.ofList number, message⟩, after)

def readErrorAt : Reader LineMessage := fun text ↦ (skip "// " text).bind readLineMessage

/-- In a diagnostic the message has to go on after its first word. -/
def readDiagnostic : Reader LineMessage := fun text ↦
  (readLineMessage text).filter fun (found, _) ↦ found.message != "Error"

def readExclusion : Reader Unit := fun text ↦ (skip "// nontest" text).map fun rest ↦ ((), rest)

/-- Tries every place of a text from left to right. -/
def leftmost? {α : Type} (read : Reader α) (text : List Char) : Option (Found α) :=
  match read text with
  | some (value, rest) =>
    some ⟨String.ofList (text.take (text.length - rest.length)), value⟩
  | none =>
    match text with
    | [] => none
    | _ :: later => leftmost? read later

/-- The mark `// expect: TEXT` states the next line of output. -/
def expectedOutput? (line : String) : Option (Found String) := leftmost? readOutput line.toList

/-- The mark `// Error...` states an error on the line that carries it. -/
def expectedError? (line : String) : Option (Found String) := leftmost? readError line.toList

/-- The mark `// [line N] Error...` states an error on a given line. -/
def expectedErrorAt? (line : String) : Option (Found LineMessage) :=
  leftmost? readErrorAt line.toList

/-- The mark `[line N] Error...` is what a scanner reports. -/
def diagnostic? (line : String) : Option (Found LineMessage) :=
  leftmost? readDiagnostic line.toList

/-- The mark `// nontest` says that the file is no test. -/
def exclusion? (line : String) : Option (Found Unit) := leftmost? readExclusion line.toList

end Mark

end LoxScan.Suite
