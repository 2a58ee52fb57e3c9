import LoxScan.FileTree.Basic
import LoxScan.Suite.PathPattern

/-!
# Walks through a file tree

A walk visits the places that a path pattern describes.  It goes depth first: the entries of a
directory are visited in their order, and each of them before its own contents.  Every place is
reached with the names that lead to it, and the path that they spell is the path of the place as
it is shown later.

The path from one directory to a place is computed from the two spellings alone: what they have in
common at the front is dropped, each component of the base that remains is left by `..`, and the
rest of the path follows.
-/

namespace LoxScan.Suite

open FileTree (Directory Node Place)
open PathPattern (Component Atom)

/-- A place with the names by which it was reached.  Without names it is the working directory, and
an empty name in front of the others stands for the root. -/
structure Site where
  names : List String
  place : Place

namespace Site

def path (s : Site) : String := String.intercalate "/" s.names

def lastName (s : Site) : String := (s.names.getLast?).getD ""

mutual

/-- Everything below a node, each entry before its contents. -/
def below (names : List String) (above : List Directory) : Node → List Site
  | .directory entries => belowEntries names (entries :: above) entries
  | .file _ => []
  | .program _ => []

def belowEntries (names : List String) (above : List Directory) : Directory → List Site
  | .empty => []
  | .entry name node later =>
    ⟨names ++ [name], ⟨node, above⟩⟩ :: below (names ++ [name]) above node ++
      belowEntries names above later

end

def descendants (s : Site) : List Site := below s.names s.place.above s.place.node

def children (s : Site) : List Site :=
  match s.place.entries? with
  | none => []
  | some entries =>
    entries.toList.map fun (name, node) ↦ ⟨s.names ++ [name], node, entries :: s.place.above⟩

/-- A place with the names that lead to it.  What is behind too long a path cannot be known. -/
def at? (names : List String) (place : Place) : Option Site :=
  let site : Site := ⟨names, place⟩
  if site.path.utf8ByteSize > Place.pathLimit then none else some site

/-- The place that a component without wildcards leads to.  An empty component and one that stands
for the directory itself need a directory; neither of them is shown where it adds nothing, but an
empty component leads nowhere from the working directory. -/
def named? (s : Site) (name : String) : Option Site :=
  if name = "" then if s.names.isEmpty ∨ !s.place.isDirectory then none else some s
  else if name = "." then
    if !s.place.isDirectory then none
    else if s.names.isEmpty then some s
    else at? (s.names ++ [name]) s.place
  else if name = ".." then
    if !s.place.isDirectory then none else at? (s.names ++ [name]) s.place.parent
  else (s.place.child? name).bind fun place ↦ at? (s.names ++ [name]) place

/-- The directory itself and the one above it count as entries only for a pattern that begins with
a dot, and they come before the others. -/
def specials (s : Site) (atoms : List Atom) : List Site :=
  if atoms.head? = some (.char '.') then
    (["..", "."].filter fun name ↦ PathPattern.describes atoms name.toList).filterMap s.named?
  else []

def matching (s : Site) (atoms : List Atom) : List Site :=
  s.specials atoms ++
    s.children.filter fun child ↦ PathPattern.describes atoms child.lastName.toList

/-- The sites that the components lead to.  What follows `**` is tried on everything below, and
several `**` in a row are as good as one. -/
def walk : List Component → Site → List Site
  | [], s => [s]
  | .name text :: rest, s => (s.named? text).toList.flatMap (walk rest)
  | .wildcard atoms :: rest, s => (s.matching atoms).flatMap (walk rest)
  | [.directories], s => s.descendants.filter fun d ↦ d.place.isDirectory
  | .directories :: .directories :: rest, s => walk (.directories :: rest) s
  | .directories :: next :: rest, s =>
    (s.descendants.filter fun d ↦ next.describesName d.lastName).flatMap (walk rest)

end Site

/-- The paths in a tree that a pattern describes, in the order of the walk. -/
def PathPattern.paths (p : PathPattern) (tree : FileTree) : List String :=
  let start : Site := if p.absolute then ⟨[""], Place.root tree⟩ else ⟨[], Place.working tree⟩
  (Site.walk p.components start).map Site.path

namespace RelativePath

/-- The components of a path.  Empty ones do not count, and neither does `.` except in front. -/
def componentsOf (path : String) : List String :=
  match Text.Split.fields '/' path with
  | [] => []
  | first :: rest =>
    (if first = "" then [] else [first]) ++ rest.filter fun name ↦ name != "" && name != "."

/-- The components that lead from a base to a path, after those that have been found already.
Nothing is known of what lies above a base component `..`, so there is no answer then. -/
def from? (found : List String) : List String → List String → Option (List String)
  | path, [] => some (found ++ path)
  | [], _ :: base => from? (found ++ [".."]) [] base
  | name :: path, step :: base =>
    if found.isEmpty ∧ name = step then from? found path base
    else if step = "." then from? (found ++ [name]) path base
    else if step = ".." then none
    else some (found ++ [".."] ++ base.map (fun _ ↦ "..") ++ name :: path)

/-- A path as seen from a base, or the path itself if it cannot be seen from there. -/
def between (base path : String) : String :=
  match from? [] (componentsOf path) (componentsOf base) with
  | some names => String.intercalate "/" names
  | none => path

end RelativePath

end LoxScan.Suite
