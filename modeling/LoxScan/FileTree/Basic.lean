import LoxScan.Stream.Writer
import LoxScan.Text.Basic

/-!
# File trees

A tree of named files, programs and directories.  The entries of a directory have distinct names
and are kept in the ascending order of these, which is the order of their bytes as well because
UTF-8 preserves the order of characters.  One of the directories is where programs work.

A place is a node of a tree together with the directories above it, so that a path can also lead
upwards.  Paths are followed one component at a time from the root or from the working directory,
and every component but a name, also an empty one, requires that the place reached so far be a
directory.  Names and paths are limited in the number of their bytes, and a path without a name
leads nowhere.
-/

namespace LoxScan

open IoError (Refusal)

namespace FileTree

/-- What starting a program does: it runs one of the two commands of this library, or it ignores
its arguments, writes fixed bytes, and ends with a code, or by a signal and without one. -/
inductive Program where
  | scanner
  | suiteRunner
  | scripted (stdout stderr : List UInt8) (code : Option UInt8)
deriving DecidableEq, Repr

mutual

inductive Node where
  | file (contents : List UInt8)
  | program (p : Program)
  | directory (entries : Directory)

inductive Directory where
  | empty
  | entry (name : String) (node : Node) (later : Directory)

end

namespace Directory

def toList : Directory → List (String × Node)
  | empty => []
  | entry name node later => (name, node) :: later.toList

def find? (name : String) : Directory → Option Node
  | empty => none
  | entry other node later => if other = name then some node else later.find? name

/-- Adds an entry at its place in the order, in place of one of the same name. -/
def put (name : String) (node : Node) : Directory → Directory
  | empty => entry name node empty
  | entry other present later =>
    if name < other then entry name node (entry other present later)
    else if other = name then entry name node later
    else entry other present (later.put name node)

/-- The entries of a directory below this one, if there is one of that name. -/
def subdirectory (name : String) (d : Directory) : Directory :=
  match d.find? name with
  | some (.directory entries) => entries
  | _ => empty

/-- Adds the directories of a path that do not exist. -/
def makeDirectories : List String → Directory → Directory
  | [], d => d
  | name :: rest, d => d.put name (.directory ((d.subdirectory name).makeDirectories rest))

/-- Adds a node below a directory, and the directories on the way to it that do not exist. -/
def insert (node : Node) : List String → Directory → Directory
  | [], d => d
  | [name], d => d.put name node
  | name :: rest, d => d.put name (.directory ((d.subdirectory name).insert node rest))

@[simp] theorem find?_put_self (name : String) (node : Node) (d : Directory) :
    (d.put name node).find? name = some node := by
  fun_induction put name node d with
  | case1 => simp [find?]
  | case2 => simp [find?]
  | case3 => simp [find?]
  | case4 other present later _ hne ih => simp [find?, hne, ih]

theorem find?_put_of_ne {name other : String} (h : other ≠ name) (node : Node) (d : Directory) :
    (d.put name node).find? other = d.find? other := by
  fun_induction put name node d with
  | case1 => simp [find?, h.symm]
  | case2 => simp [find?, h.symm]
  | case3 present later => simp [find?, h.symm]
  | case4 first present later _ _ ih => simp [find?, ih]

end Directory

/-- Whether directories stand above one another, the first of them above the given one. -/
def Nested : Directory → List Directory → Prop
  | _, [] => True
  | d, up :: above => (∃ name, up.find? name = some (.directory d)) ∧ Nested up above

end FileTree

/-- A tree as it is seen from a working directory, whose entries these are.  The directories above
it are listed from the nearest one up to the root. -/
structure FileTree where
  entries : FileTree.Directory
  above : List FileTree.Directory
  nested : FileTree.Nested entries above

namespace FileTree

def root (tree : FileTree) : Directory := tree.above.getLast?.getD tree.entries

/-- A node of a tree and the directories above it, from the nearest one up to the root. -/
structure Place where
  node : Node
  above : List Directory

namespace Place

def root (tree : FileTree) : Place := ⟨.directory tree.root, []⟩

def working (tree : FileTree) : Place := ⟨.directory tree.entries, tree.above⟩

def entries? (place : Place) : Option Directory :=
  match place.node with
  | .directory entries => some entries
  | .file _ => none
  | .program _ => none

def isDirectory (place : Place) : Bool := place.entries?.isSome

def child? (place : Place) (name : String) : Option Place := do
  let entries ← place.entries?
  let node ← entries.find? name
  return ⟨node, entries :: place.above⟩

/-- The directory above a place.  Nothing is above the root, which stands for what is above it. -/
def parent (place : Place) : Place :=
  match place.above with
  | [] => place
  | directory :: above => ⟨.directory directory, above⟩

/-- The most bytes that a name may have. -/
def nameLimit : Nat := 255

/-- The most bytes that a path may have. -/
def pathLimit : Nat := 4095

/-- Follows one component of a path. -/
def step (place : Place) (component : String) : Except Refusal Place :=
  if !place.isDirectory then .error .notDirectory
  else if component = "" ∨ component = "." then .ok place
  else if component = ".." then .ok place.parent
  else if component.utf8ByteSize > nameLimit then .error .nameTooLong
  else
    match place.child? component with
    | some place => .ok place
    | none => .error .missing

/-- Follows a path from the working directory, or from the root if the path is absolute. -/
def find (tree : FileTree) (path : String) : Except Refusal Place :=
  if path = "" then .error .missing
  else if path.utf8ByteSize > pathLimit then .error .nameTooLong
  else
    let start := if path.toList.head? = some '/' then root tree else working tree
    (Text.Split.fields '/' path).foldlM step start

end Place

/-- The bytes of a program, of which it only matters that they are not text. -/
def Program.image : List UInt8 := [0x7F, 0x45, 0x4C, 0x46, 0xFF]

def hasNul (text : String) : Bool := text.toList.contains '\x00'

def read (tree : FileTree) (path : String) : Except IoError (List UInt8) :=
  if hasNul path then .error .nulInName
  else
    match Place.find tree path with
    | .ok ⟨.file contents, _⟩ => .ok contents
    | .ok ⟨.program _, _⟩ => .ok Program.image
    | .ok ⟨.directory _, _⟩ => .error (.refused .directory)
    | .error refusal => .error (.refused refusal)

/-- The program that a command names.  A name without a slash is looked up elsewhere than in the
tree, where nothing is known to exist, and files that are not programs may not be started. -/
def program (tree : FileTree) (command : String) : Except IoError Program :=
  if hasNul command then .error .nulInArgument
  else if !command.toList.contains '/' then
    .error (.refused (if command.utf8ByteSize > Place.nameLimit then .nameTooLong else .missing))
  else
    match Place.find tree command with
    | .ok ⟨.program p, _⟩ => .ok p
    | .ok _ => .error (.refused .forbidden)
    | .error refusal => .error (.refused refusal)

end FileTree

end LoxScan
