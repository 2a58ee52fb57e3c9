/-!
# Text

Bytes are read by a machine that takes one byte at a time and emits a piece whenever a character
is complete or can no longer be completed.  The pieces of a byte string are therefore its
characters and, between them, its maximal ill-formed runs.  Strict decoding asks that every piece
be a character; lossy decoding writes U+FFFD for each of the others.

Text is split into the fields between separators, or into lines.  A line ends at a newline, and
one carriage return directly before that newline belongs to the ending.  What follows the last
newline is a line of its own unless it is empty, and it keeps a carriage return at its end.

The characters of Unicode's general category `Nd` come in runs of ten that stand for 0 to 9, so
the zeros determine them all.
-/

namespace LoxScan.Text.Utf8

/-- A character of which at least the first byte has been read: its leading bits, the range the
next byte has to lie in, and the number of bytes due after that one. -/
structure Pending where
  bits : Nat
  least : UInt8
  greatest : UInt8
  later : Nat
deriving DecidableEq, Repr

/-- What one more byte makes of the character it belongs to. -/
inductive Step where
  | complete (c : Char)
  | awaiting (pending : Pending)
  | malformed
deriving DecidableEq, Repr

/-- Ranges of the second byte exclude overlong forms, surrogates and values above U+10FFFF, so a
character that can be completed byte by byte is always a Unicode scalar value. -/
def start (b : UInt8) : Step :=
  let due (bits : Nat) (least greatest : UInt8) (later : Nat) :=
    Step.awaiting ⟨bits, least, greatest, later⟩
  if b < 0x80 then .complete (Char.ofNat b.toNat)
  else if b < 0xC2 then .malformed
  else if b < 0xE0 then due (b.toNat - 0xC0) 0x80 0xBF 0
  else if b = 0xE0 then due 0 0xA0 0xBF 1
  else if b = 0xED then due 0xD 0x80 0x9F 1
  else if b < 0xF0 then due (b.toNat - 0xE0) 0x80 0xBF 1
  else if b = 0xF0 then due 0 0x90 0xBF 2
  else if b < 0xF4 then due (b.toNat - 0xF0) 0x80 0xBF 2
  else if b = 0xF4 then due 4 0x80 0x8F 2
  else .malformed

def Pending.take (p : Pending) (b : UInt8) : Step :=
  if p.least ≤ b ∧ b ≤ p.greatest then
    let bits := p.bits * 64 + (b.toNat - 0x80)
    match p.later with
    | 0 => .complete (Char.ofNat bits)
    | later + 1 => .awaiting ⟨bits, 0x80, 0xBF, later⟩
  else .malformed

/-- The pieces that a byte completes, and the character it leaves pending.  A byte that does not
continue the pending character ends it as malformed and is read again as a first byte. -/
def advance (pending : Option Pending) (b : UInt8) : List (Option Char) × Option Pending :=
  let fresh : List (Option Char) × Option Pending :=
    match start b with
    | .complete c => ([some c], none)
    | .awaiting p => ([], some p)
    | .malformed => ([none], none)
  match pending with
  | none => fresh
  | some p =>
    match p.take b with
    | .complete c => ([some c], none)
    | .awaiting p => ([], some p)
    | .malformed => (none :: fresh.1, fresh.2)

def piecesFrom : Option Pending → List UInt8 → List (Option Char)
  | none, [] => []
  | some _, [] => [none]
  | pending, b :: bytes => (advance pending b).1 ++ piecesFrom (advance pending b).2 bytes

/-- The characters of a byte string in order, with `none` for each maximal ill-formed run. -/
def pieces (bytes : List UInt8) : List (Option Char) := piecesFrom none bytes

/-- The text that the bytes encode, if they are well formed throughout. -/
def decode? (bytes : List UInt8) : Option String :=
  ((pieces bytes).mapM id).map String.ofList

/-- Each maximal ill-formed run is read as one U+FFFD. -/
def decodeLossy (bytes : List UInt8) : String :=
  String.ofList ((pieces bytes).map fun piece ↦ piece.getD '\uFFFD')

def encode (text : String) : List UInt8 := text.toList.flatMap String.utf8EncodeChar

@[simp] theorem encode_empty : encode "" = [] := by simp [encode]

@[simp] theorem encode_append (s t : String) : encode (s ++ t) = encode s ++ encode t := by
  simp [encode]

theorem encode_join (texts : List String) :
    encode (String.join texts) = texts.flatMap encode := by
  rw [encode, String.toList_join, List.flatMap_assoc]
  rfl

end LoxScan.Text.Utf8

namespace LoxScan.Text.Split

/-- Puts a character in front of the first field, which it starts if there is none. -/
def extendFirst (c : Char) : List (List Char) → List (List Char)
  | [] => [[c]]
  | field :: fields => (c :: field) :: fields

/-- The fields between separators, of which there is one more than there are separators. -/
def fieldsOf (separator : Char) : List Char → List (List Char)
  | [] => [[]]
  | c :: rest =>
    if c = separator then [] :: fieldsOf separator rest
    else extendFirst c (fieldsOf separator rest)

/-- The lines of a text, without their endings. -/
def linesOf : List Char → List (List Char)
  | [] => []
  | '\n' :: rest => [] :: linesOf rest
  | '\r' :: '\n' :: rest => [] :: linesOf rest
  | c :: rest => extendFirst c (linesOf rest)

def fields (separator : Char) (text : String) : List String :=
  (fieldsOf separator text.toList).map String.ofList

def lines (text : String) : List String := (linesOf text.toList).map String.ofList

end LoxScan.Text.Split

namespace LoxScan.Text.DecimalDigit

/-- The code points that stand for zero, in ascending order. -/
def zeros : List Nat :=
  [0x0030, 0x0660, 0x06F0, 0x07C0, 0x0966, 0x09E6, 0x0A66, 0x0AE6, 0x0B66, 0x0BE6, 0x0C66, 0x0CE6,
   0x0D66, 0x0DE6, 0x0E50, 0x0ED0, 0x0F20, 0x1040, 0x1090, 0x17E0, 0x1810, 0x1946, 0x19D0, 0x1A80,
   0x1A90, 0x1B50, 0x1BB0, 0x1C40, 0x1C50, 0xA620, 0xA8D0, 0xA900, 0xA9D0, 0xA9F0, 0xAA50, 0xABF0,
   0xFF10, 0x104A0, 0x10D30, 0x10D40, 0x11066, 0x110F0, 0x11136, 0x111D0, 0x112F0, 0x11450, 0x114D0,
   0x11650, 0x116C0, 0x116D0, 0x116DA, 0x11730, 0x118E0, 0x11950, 0x11BF0, 0x11C50, 0x11D50,
   0x11DA0, 0x11F50, 0x16130, 0x16A60, 0x16AC0, 0x16B50, 0x16D70, 0x1CCF0, 0x1D7CE, 0x1D7D8,
   0x1D7E2, 0x1D7EC, 0x1D7F6, 0x1E140, 0x1E2F0, 0x1E4F0, 0x1E5F1, 0x1E950, 0x1FBF0]

/-- Membership in the general category `Nd`, which is wider than the ASCII digits. -/
def isDecimalDigit (c : Char) : Bool :=
  zeros.any fun first ↦ first ≤ c.toNat && c.toNat < first + 10

end LoxScan.Text.DecimalDigit
