import LoxScan.Stream.Writer
import LoxScan.Text.Basic

/-!
# Input feeds

A feed delivers bytes in chunks of any size, and reads may fail in between.  What the reader of
lines makes of it does not depend on where the chunks end: lines are assembled across them.  An
interrupted read is tried again without a trace.  Any other failure takes the place of the line
that was being read, whose bytes are lost, and reading can go on after it.

A reader takes the lines one at a time from the chunks that its reads deliver.  A line may begin in
one chunk and end in a later one, so the bytes of a line that has begun are carried along, and what
a chunk holds beyond the end of the line is left for the next one.
-/

namespace LoxScan

/-- The bytes that one read delivers.  A read without bytes would be the end of the input. -/
structure Chunk where
  bytes : List UInt8
  nonempty : bytes ≠ []
deriving DecidableEq, Repr

/-- What one read delivers. -/
inductive Delivery where
  | chunk (chunk : Chunk)
  | failure (error : IoError)
deriving DecidableEq, Repr

/-- Bytes that are delivered at once, if there are any. -/
def Delivery.ofBytes (bytes : List UInt8) : List Delivery :=
  if h : bytes = [] then [] else [.chunk ⟨bytes, h⟩]

/-- One byte of a feed, or a failure between two bytes. -/
abbrev Feed := List (Except IoError UInt8)

/-- What reading one line yields. -/
abbrev Entry := Except IoError String

namespace Feed

def ofBytes (bytes : List UInt8) : Feed := bytes.map Except.ok

def isInterruption : Delivery → Bool
  | .failure error => error.kind == .interrupted
  | .chunk _ => false

def ofDelivery : Delivery → Feed
  | .chunk chunk => ofBytes chunk.bytes
  | .failure error => [.error error]

def ofDeliveries (deliveries : List Delivery) : Feed :=
  (deliveries.filter fun d ↦ !isInterruption d).flatMap ofDelivery

/-- Puts a byte in front of the line that is read first.  If a failure comes before the end of
that line, the byte is lost. -/
def extendFirst (b : UInt8) :
    List (Except IoError (List UInt8)) → List (Except IoError (List UInt8))
  | .ok line :: rest => .ok (b :: line) :: rest
  | .error error :: rest => .error error :: rest
  | [] => [.ok [b]]

/-- The lines of a feed without their endings, and the failures between them. -/
def lines : Feed → List (Except IoError (List UInt8))
  | [] => []
  | .error error :: rest => .error error :: lines rest
  | .ok b :: rest =>
    if b = 0x0A then .ok [] :: lines rest
    else
      match rest with
      | .ok 0x0A :: _ => if b = 0x0D then lines rest else extendFirst b (lines rest)
      | _ => extendFirst b (lines rest)

/-- A line that is not valid UTF-8 is an error of its own. -/
def decodeLine (bytes : List UInt8) : Entry :=
  match Text.Utf8.decode? bytes with
  | some line => .ok line
  | none => .error .invalidUtf8

def entries (feed : Feed) : List Entry := (lines feed).map fun line ↦ line.bind decodeLine

end Feed

namespace Reader

/-- A line without the carriage return that belongs to its ending. -/
def withoutReturn (line : List UInt8) : List UInt8 :=
  if line.getLast? = some 0x0D then line.dropLast else line

/-- Reads up to the end of a line of which some bytes have been read, and returns the line or what
failed together with the deliveries that are left.  At the end of the input there is no line, unless
some bytes of it have been read. -/
def readLine? (carried : List UInt8) :
    List Delivery → Option (Except IoError (List UInt8) × List Delivery)
  | [] => if carried = [] then none else some (.ok carried, [])
  | .failure error :: later =>
    if error.kind = .interrupted then readLine? carried later else some (.error error, later)
  | .chunk chunk :: later =>
    match chunk.bytes.dropWhile (· ≠ 0x0A) with
    | [] => readLine? (carried ++ chunk.bytes) later
    | _ :: left =>
      some (.ok (withoutReturn (carried ++ chunk.bytes.takeWhile (· ≠ 0x0A))),
        Delivery.ofBytes left ++ later)

/-- The number of reads and bytes that an input has left. -/
def remaining : List Delivery → Nat
  | [] => 0
  | .chunk chunk :: later => chunk.bytes.length + 1 + remaining later
  | .failure _ :: later => 1 + remaining later

theorem remaining_ofBytes_append_le (bytes : List UInt8) (later : List Delivery) :
    remaining (Delivery.ofBytes bytes ++ later) ≤ bytes.length + 1 + remaining later := by
  rw [Delivery.ofBytes]
  split
  · exact Nat.le_add_left _ _
  · exact Nat.le_refl _

/-- Every line takes something from the input. -/
theorem remaining_lt {carried : List UInt8} {input left : List Delivery}
    {line : Except IoError (List UInt8)} (h : readLine? carried input = some (line, left)) :
    remaining left < remaining input + carried.length := by
  fun_induction readLine? carried input with
  | case1 => cases h
  | case2 carried hne =>
    cases h
    have hpos := List.length_pos_iff.2 hne
    simpa [remaining] using hpos
  | case3 carried error later hkind ih =>
    have hlt := ih h
    simp only [remaining] at hlt ⊢
    omega
  | case4 carried error later hkind =>
    cases h
    simp only [remaining]
    omega
  | case5 carried chunk later hdrop ih =>
    have hlt := ih h
    simp only [remaining, List.length_append] at hlt ⊢
    omega
  | case6 carried chunk later b rest hdrop =>
    cases h
    have hsuffix := List.dropWhile_suffix (fun c : UInt8 ↦ decide (c ≠ 0x0A)) (l := chunk.bytes)
    have hlength := hsuffix.length_le
    rw [hdrop, List.length_cons] at hlength
    have hleft := remaining_ofBytes_append_le rest later
    simp only [remaining]
    omega

end Reader

end LoxScan
