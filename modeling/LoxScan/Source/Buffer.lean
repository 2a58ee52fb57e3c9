import LoxScan.Text.Basic

/-!
# Source buffers

A scanner addresses the characters of its source by their numbers, but the source is kept as bytes.
A table says at which byte each character begins and, behind the last one, how many bytes there are.
Numbers that do not fit are not kept from being used.  There is no character then, and no part of
the text.
-/

namespace LoxScan

open Text

/-- What ends a scan early: a part of the text that is not there, or a difference below zero. -/
inductive Fault where
  | part (first last : Nat)
  | difference (a b : Nat)
deriving DecidableEq, Repr

def Fault.subtract (a b : Nat) : Except Fault Nat :=
  if b ≤ a then .ok (a - b) else .error (.difference a b)

/-- What a scanner can ask for: the number of characters, a single one, and those from one number up
to another one. -/
structure View where
  length : Except Fault Nat
  character? : Nat → Option Char
  slice : Nat → Nat → Except Fault String

def View.ofCharacters (characters : List Char) : View where
  length := .ok characters.length
  character? i := characters[i]?
  slice first last :=
    if first ≤ last ∧ last ≤ characters.length then
      .ok (String.ofList ((characters.drop first).take (last - first)))
    else .error (.part first last)

structure Buffer where
  bytes : List UInt8
  boundaries : List Nat
deriving DecidableEq, Repr

namespace Buffer

/-- The bytes at which characters begin if the first of them begins at the given one. -/
def offsets (offset : Nat) : List Char → List Nat
  | [] => []
  | c :: rest => offset :: offsets (offset + c.utf8Size) rest

def ofText (source : String) : Buffer :=
  let bytes := Utf8.encode source
  ⟨bytes, offsets 0 source.toList ++ [bytes.length]⟩

/-- The bytes that continue a character. -/
def isContinuation (b : UInt8) : Bool := 0x80 ≤ b && b < 0xC0

/-- Text can be taken apart at both of its ends and in front of a byte that continues nothing. -/
def isBoundary (b : Buffer) (offset : Nat) : Bool :=
  offset == 0 ||
    match b.bytes[offset]? with
    | some byte => !isContinuation byte
    | none => offset == b.bytes.length

/-- The first character from a boundary on. -/
def character? (b : Buffer) (i : Nat) : Option Char :=
  match b.boundaries[i]? with
  | none => none
  | some offset =>
    if b.isBoundary offset then (Utf8.pieces (b.bytes.drop offset)).head?.join else none

/-- The text between two boundaries. -/
def slice (b : Buffer) (first last : Nat) : Except Fault String :=
  match b.boundaries[first]?, b.boundaries[last]? with
  | some low, some high =>
    if low ≤ high ∧ b.isBoundary low ∧ b.isBoundary high then
      match Utf8.decode? ((b.bytes.drop low).take (high - low)) with
      | some text => .ok text
      | none => .error (.part first last)
    else .error (.part first last)
  | _, _ => .error (.part first last)

def view (b : Buffer) : View where
  length := Fault.subtract b.boundaries.length 1
  character? := b.character?
  slice := b.slice

end Buffer

end LoxScan
