/-!
# Command line arguments

Arguments are read from left to right.  A flag acts as soon as it is met, unless something before
it turns out to be wrong.  An option takes its value either after an equals sign or from the next
argument that does not look like a flag.  One plain argument is accepted, and after `--` every
argument is plain.

An option or plain argument that has been read stays open until it is settled: when the next
flag, option or plain argument is accepted, or at the end.  Only then is its value judged, so an
argument that cannot be accepted at all is reported before it.

A problem tells as much as is needed to explain it, which may include what was given before.
-/

namespace LoxScan.CommandLine

/-- A flag has a long name and a letter. -/
structure Flag where
  name : String
  letter : Char
deriving DecidableEq, Repr

/-- What a command accepts.  Options always take a value, which may not be empty. -/
structure Grammar where
  flags : List Flag
  options : List String
  plainMayBeEmpty : Bool
deriving DecidableEq, Repr

structure Arguments where
  values : List (String × String)
  plain : Option String
deriving DecidableEq, Repr

/-- What was given up to some point: the options in their order, and whether there was a plain
argument. -/
structure Given where
  options : List String
  plain : Bool
deriving DecidableEq, Repr

inductive Problem where
  | unknownName (name : String) (given : Given)
  | unknownLetter (letter : Char)
  | surplusArgument (argument : String)
  | missingValue (option : String)
  | emptyArgument
  | repeatedOption (option : String)
  | unneededValue (flag value : String) (given : Given)
deriving DecidableEq, Repr

/-- Why reading stops before the arguments have been accepted. -/
inductive Stop where
  | problem (p : Problem)
  | flag (name : String)
deriving DecidableEq, Repr

/-- What has been read but not yet judged. -/
inductive Pending where
  | option (name : String) (value : Option String)
  | plain (argument : String)
deriving DecidableEq, Repr

/-- The arguments that are settled, and the one that is not. -/
structure Progress where
  settled : Arguments
  pending : Option Pending
deriving DecidableEq, Repr

namespace Given

def isNothing (g : Given) : Bool := g.options.isEmpty && !g.plain

def withOption (g : Given) (name : String) : Given :=
  if g.options.contains name then g else { g with options := g.options ++ [name] }

/-- An option that is given again counts as not given at all. -/
def toggle (g : Given) (name : String) : Given :=
  if g.options.contains name then { g with options := g.options.erase name }
  else g.withOption name

end Given

namespace Arguments

def none : Arguments := ⟨[], Option.none⟩

def value? (a : Arguments) (option : String) : Option String := a.values.lookup option

def given (a : Arguments) : Given := ⟨a.values.map Prod.fst, a.plain.isSome⟩

/-- A repeated option is refused before its value is judged. -/
def set (a : Arguments) (option value : String) : Except Stop Arguments :=
  if (a.value? option).isSome then .error (.problem (.repeatedOption option))
  else if value = "" then .error (.problem (.missingValue option))
  else .ok { a with values := a.values ++ [(option, value)] }

end Arguments

namespace Progress

def start : Progress := ⟨Arguments.none, none⟩

def settle (g : Grammar) (p : Progress) : Except Stop Arguments :=
  match p.pending with
  | none => .ok p.settled
  | some (.option name none) => .error (.problem (.missingValue name))
  | some (.option name (some value)) => p.settled.set name value
  | some (.plain argument) =>
    if argument = "" ∧ !g.plainMayBeEmpty then .error (.problem .emptyArgument)
    else .ok { p.settled with plain := some argument }

def hasPlain (p : Progress) : Bool :=
  p.settled.plain.isSome || match p.pending with
    | some (.plain _) => true
    | _ => false

/-- What was given, an open option included if it has its value. -/
def given (p : Progress) : Given :=
  match p.pending with
  | some (.option name (some _)) => p.settled.given.toggle name
  | some (.plain _) => { p.settled.given with plain := true }
  | _ => p.settled.given

def readPlain (g : Grammar) (p : Progress) (argument : String) : Except Stop Progress := do
  if p.hasPlain then throw (.problem (.surplusArgument argument))
  return ⟨← p.settle g, some (.plain argument)⟩

/-- A flag acts once everything before it is settled. -/
def actOn (g : Grammar) (p : Progress) (flag : Flag) : Except Stop Progress := do
  let _ ← p.settle g
  throw (.flag flag.name)

/-- Reads `--NAME` or `--NAME=VALUE`. -/
def readLong (g : Grammar) (p : Progress) (name : String) (value : Option String) :
    Except Stop Progress := do
  match g.flags.find? fun flag ↦ flag.name == name, value with
  | some flag, none => p.actOn g flag
  | some flag, some value =>
    throw (.problem (.unneededValue flag.name value p.settled.given))
  | none, value =>
    if !g.options.contains name then throw (.problem (.unknownName name p.given))
    let settled ← p.settle g
    match value with
    | none => return ⟨settled, some (.option name none)⟩
    | some value => return ⟨← settled.set name value, none⟩

/-- Reads a group of letters.  Every letter that is known acts, so the first one decides. -/
def readLetter (g : Grammar) (p : Progress) (letter : Char) : Except Stop Progress :=
  match g.flags.find? fun flag ↦ flag.letter == letter with
  | some flag => p.actOn g flag
  | none => throw (.problem (.unknownLetter letter))

/-- An option that still lacks a value takes the next argument that is no flag. -/
def readWord (g : Grammar) (p : Progress) (argument : String) : Except Stop Progress :=
  match p.pending with
  | some (.option name none) => .ok { p with pending := some (.option name (some argument)) }
  | _ => p.readPlain g argument

/-- Reads one argument that comes before `--`. -/
def read (g : Grammar) (p : Progress) (argument : String) : Except Stop Progress :=
  match argument.toList with
  | '-' :: '-' :: long =>
    let name := String.ofList (long.takeWhile (· != '='))
    match long.dropWhile (· != '=') with
    | [] => p.readLong g name none
    | _ :: value => p.readLong g name (some (String.ofList value))
  | '-' :: letter :: _ => p.readLetter g letter
  | _ => p.readWord g argument

/-- Reads the arguments that remain, all of them plain if `plainOnly`. -/
def readAll (g : Grammar) (p : Progress) (plainOnly : Bool) : List String → Except Stop Arguments
  | [] => p.settle g
  | argument :: rest =>
    if plainOnly then do (← p.readPlain g argument).readAll g true rest
    else if argument = "--" then p.readAll g true rest
    else do (← p.read g argument).readAll g false rest

end Progress

namespace Grammar

/-- The names that may follow two hyphens. -/
def names (g : Grammar) : List String := g.options ++ g.flags.map Flag.name

def parse (g : Grammar) (arguments : List String) : Except Stop Arguments :=
  Progress.start.readAll g false arguments

end Grammar

end LoxScan.CommandLine
