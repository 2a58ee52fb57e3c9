import LoxScan.Text.Basic

/-!
# Path patterns

A path pattern describes paths component by component.  In a component `?` stands for any
character, `*` for any run of characters, and brackets for one character from a list of ranges, or
for one that is not in it.  A component `**` stands for any number of directories.

The whole pattern is checked before its components are, so the position in an error counts from
the front of the pattern unless only a component on its own is malformed.
-/

namespace LoxScan.Suite

namespace PathPattern

abbrev Range := Char × Char

inductive Atom where
  | char (c : Char)
  | anyChar
  | anyRun
  | oneOf (ranges : List Range)
  | noneOf (ranges : List Range)
  | directories
deriving DecidableEq, Repr

inductive Problem where
  | unclosedRange
  | tooManyStars
  | brokenDirectories
deriving DecidableEq, Repr

def Problem.description : Problem → String
  | unclosedRange => "invalid range pattern"
  | tooManyStars => "wildcards are either regular `*` or recursive `**`"
  | brokenDirectories => "recursive wildcards must form a single path component"

structure Error where
  position : Nat
  problem : Problem
deriving DecidableEq, Repr

def Error.message (e : Error) : String :=
  "Pattern syntax error near position " ++ toString e.position ++ ": " ++ e.problem.description

/-- Two characters with a hyphen between them are a range, and any other character is a range of
its own. -/
def rangesOf : List Char → List Range
  | low :: '-' :: high :: rest => (low, high) :: rangesOf rest
  | c :: rest => (c, c) :: rangesOf rest
  | [] => []

/-- The characters up to a closing bracket and those after it.  The first character is listed
even if it is a closing bracket itself. -/
def bracketed? : List Char → Option (List Char × List Char)
  | [] => none
  | first :: rest =>
    match rest.dropWhile (· != ']') with
    | [] => none
    | _ :: after => some (first :: rest.takeWhile (· != ']'), after)

/-- Reads what follows an opening bracket. -/
def readClass? : List Char → Option (Atom × List Char)
  | '!' :: rest => (bracketed? rest).map fun (listed, after) ↦ (.noneOf (rangesOf listed), after)
  | rest => (bracketed? rest).map fun (listed, after) ↦ (.oneOf (rangesOf listed), after)

/-- Reads a run of stars at a position, of which all but the first have been counted.  Two stars
have to fill the component, and they take the slash after them along. -/
def readStars (position : Nat) (previous : Option Char) (further : Nat) (after : List Char) :
    Except Error (Atom × List Char) :=
  match further with
  | 0 => .ok (.anyRun, after)
  | 1 =>
    if previous = none ∨ previous = some '/' then
      match after with
      | [] => .ok (.directories, [])
      | '/' :: rest => .ok (.directories, rest)
      | _ => .error ⟨position + 2, .brokenDirectories⟩
    else .error ⟨position - 1, .brokenDirectories⟩
  | _ => .error ⟨position + 2, .tooManyStars⟩

/-- Reads the atom that a character at a position opens, and returns what follows it. -/
def readAtom (position : Nat) (previous : Option Char) (c : Char) (rest : List Char) :
    Except Error (Atom × List Char) :=
  match c with
  | '?' => .ok (.anyChar, rest)
  | '*' =>
    readStars position previous (rest.takeWhile (· == '*')).length (rest.dropWhile (· == '*'))
  | '[' =>
    match readClass? rest with
    | some (atom, after) => .ok (atom, after)
    | none => .error ⟨position, .unclosedRange⟩
  | c => .ok (.char c, rest)

/-- Reads the atoms of a pattern of which the characters up to a position have been read.  Each
atom takes at least one character, so the given number of steps suffices for as many. -/
def readAtoms (steps position : Nat) (previous : Option Char) (pattern : List Char) :
    Except Error (List Atom) :=
  match steps, pattern with
  | 0, _ => .ok []
  | _, [] => .ok []
  | steps + 1, c :: rest => do
    let (atom, after) ← readAtom position previous c rest
    let taken := (c :: rest).take (pattern.length - after.length)
    let atoms ← readAtoms steps (position + taken.length) taken.getLast? after
    return atom :: atoms

def atomsOf (text : String) : Except Error (List Atom) :=
  readAtoms text.length 0 none text.toList

/-- A component without wildcards names one entry. -/
inductive Component where
  | name (text : String)
  | wildcard (atoms : List Atom)
  | directories
deriving DecidableEq, Repr

def isChar : Atom → Bool
  | .char _ => true
  | _ => false

def Component.ofText (text : String) : Except Error Component := do
  let atoms ← atomsOf text
  if atoms == [.directories] then return directories
  else if atoms.all isChar then return name text
  else return wildcard atoms

def inRanges (c : Char) (ranges : List Range) : Bool :=
  ranges.any fun (low, high) ↦ low ≤ c && c ≤ high

/-- Whether an atom that describes single characters describes this one. -/
def Atom.describesChar : Atom → Char → Bool
  | .char c, d => c == d
  | .anyChar, _ => true
  | .oneOf ranges, d => inRanges d ranges
  | .noneOf ranges, d => !inRanges d ranges
  | .anyRun, _ => false
  | .directories, _ => false

/-- The answers for the ends of a name if a run of any characters comes first.  It may be empty,
and it may be longer by one character than a run that serves the next end. -/
def answersAfterRun : List Bool → List Bool
  | [] => []
  | answer :: answers =>
    let longer := answersAfterRun answers
    (answer || longer.headD false) :: longer

/-- The answers for the ends of a name if one character comes first. -/
def answersAfterChar (atom : Atom) : List Char → List Bool → List Bool
  | c :: name, _ :: answers =>
    (atom.describesChar c && answers.headD false) :: answersAfterChar atom name answers
  | _, _ => [false]

/-- Whether atoms describe the ends of a name, from the whole name down to its empty end.  The
answers for all atoms follow from those for all but the first, so no end is looked at twice. -/
def answers : List Atom → List Char → List Bool
  | [], name => name.map (fun _ ↦ false) ++ [true]
  | .anyRun :: atoms, name => answersAfterRun (answers atoms name)
  | atom :: atoms, name => answersAfterChar atom name (answers atoms name)

/-- Whether atoms describe a name as a whole. -/
def describes (atoms : List Atom) (name : List Char) : Bool := (answers atoms name).headD false

theorem answers_nil (atoms : List Atom) : answers atoms [] = [describes atoms []] := by
  suffices h : ∃ b, answers atoms [] = [b] by
    obtain ⟨b, h⟩ := h
    simp [describes, h]
  induction atoms with
  | nil => exact ⟨true, rfl⟩
  | cons atom atoms ih =>
    obtain ⟨b, ih⟩ := ih
    cases atom <;> simp [answers, ih, answersAfterRun, answersAfterChar]

theorem answers_cons (atoms : List Atom) (c : Char) (name : List Char) :
    answers atoms (c :: name) = describes atoms (c :: name) :: answers atoms name := by
  suffices h : ∃ b, answers atoms (c :: name) = b :: answers atoms name by
    obtain ⟨b, h⟩ := h
    rw [describes, h, List.headD_cons]
  induction atoms with
  | nil => exact ⟨false, rfl⟩
  | cons atom atoms ih =>
    obtain ⟨b, ih⟩ := ih
    cases atom <;> simp [answers, ih, answersAfterRun, answersAfterChar]

theorem describes_nil (name : List Char) : describes [] name = name.isEmpty := by
  cases name <;> rfl

theorem describes_anyRun_nil (atoms : List Atom) :
    describes (.anyRun :: atoms) [] = describes atoms [] := by
  rw [describes, answers, answers_nil]
  simp [answersAfterRun]

/-- A run stops, or it takes a character and goes on. -/
theorem describes_anyRun_cons (atoms : List Atom) (c : Char) (name : List Char) :
    describes (.anyRun :: atoms) (c :: name) =
      (describes atoms (c :: name) || describes (.anyRun :: atoms) name) := by
  rw [describes, answers, answers_cons]
  rfl

theorem describes_cons_nil {atom : Atom} (h : atom ≠ .anyRun) (atoms : List Atom) :
    describes (atom :: atoms) [] = false := by
  rw [describes, answers]
  · rfl
  · exact h

theorem describes_cons_cons {atom : Atom} (h : atom ≠ .anyRun) (atoms : List Atom) (c : Char)
    (name : List Char) :
    describes (atom :: atoms) (c :: name) = (atom.describesChar c && describes atoms name) := by
  rw [describes, answers, answers_cons]
  · rfl
  · exact h

def Component.describesName : Component → String → Bool
  | name text, other => text == other
  | wildcard atoms, other => describes atoms other.toList
  | directories, _ => false

end PathPattern

/-- A pattern is absolute if it starts at the root of the file system. -/
structure PathPattern where
  absolute : Bool
  components : List PathPattern.Component
deriving DecidableEq, Repr

namespace PathPattern

def ofText (text : String) : Except Error PathPattern := do
  let _ ← atomsOf text
  let absolute := text.toList.head? == some '/'
  let fields := Text.Split.fields '/' text
  let components ← (if absolute then fields.drop 1 else fields).mapM Component.ofText
  return ⟨absolute, components⟩

end PathPattern

end LoxScan.Suite
