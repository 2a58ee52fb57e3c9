/-!
# Writers and outcomes

Reading, writing and starting programs fail for a cause.  The system's own refusals carry a
number and a fixed description; an input stream may also deliver a failure with a kind and a
text of its own.

A writer keeps the bytes it has taken and may have a limit on their number.  It takes as much of
each write as there is room for, so what it holds is always a prefix of what was offered.  A
program that has ended leaves what it wrote to its two streams and a code.
-/

namespace LoxScan

namespace IoError

inductive Kind where
  | notFound
  | permissionDenied
  | notADirectory
  | isADirectory
  | invalidInput
  | invalidFilename
  | invalidData
  | storageFull
  | interrupted
  | other
deriving DecidableEq, Repr

namespace Kind

def all : List Kind :=
  [.notFound, .permissionDenied, .notADirectory, .isADirectory, .invalidInput,
   .invalidFilename, .invalidData, .storageFull, .interrupted, .other]

def name : Kind → String
  | notFound => "NotFound"
  | permissionDenied => "PermissionDenied"
  | notADirectory => "NotADirectory"
  | isADirectory => "IsADirectory"
  | invalidInput => "InvalidInput"
  | invalidFilename => "InvalidFilename"
  | invalidData => "InvalidData"
  | storageFull => "StorageFull"
  | interrupted => "Interrupted"
  | other => "Other"

end Kind

/-- What the system refuses about a path. -/
inductive Refusal where
  | missing
  | forbidden
  | notDirectory
  | directory
  | nameTooLong
deriving DecidableEq, Repr

namespace Refusal

def code : Refusal → Nat
  | missing => 2
  | forbidden => 13
  | notDirectory => 20
  | directory => 21
  | nameTooLong => 36

def kind : Refusal → Kind
  | missing => .notFound
  | forbidden => .permissionDenied
  | notDirectory => .notADirectory
  | directory => .isADirectory
  | nameTooLong => .invalidFilename

def description : Refusal → String
  | missing => "No such file or directory"
  | forbidden => "Permission denied"
  | notDirectory => "Not a directory"
  | directory => "Is a directory"
  | nameTooLong => "File name too long"

end Refusal

end IoError

/-- The character NUL ends names and arguments where the system reads them, so none that holds it
gets there. -/
inductive IoError where
  | refused (r : IoError.Refusal)
  | nulInName
  | nulInArgument
  | invalidUtf8
  | limitReached
  | delivered (kind : IoError.Kind) (text : String)
deriving DecidableEq, Repr

namespace IoError

def kind : IoError → Kind
  | refused r => r.kind
  | nulInName => .invalidInput
  | nulInArgument => .invalidInput
  | invalidUtf8 => .invalidData
  | limitReached => .storageFull
  | delivered kind _ => kind

def message : IoError → String
  | refused r => r.description ++ " (os error " ++ toString r.code ++ ")"
  | nulInName => "file name contained an unexpected NUL byte"
  | nulInArgument => "nul byte found in provided data"
  | invalidUtf8 => "stream did not contain valid UTF-8"
  | limitReached => "limit reached"
  | delivered _ text => text

end IoError

structure Writer where
  limit : Option Nat
  written : List UInt8
deriving DecidableEq, Repr

namespace Writer

def withLimit (limit : Option Nat) : Writer := ⟨limit, []⟩

def room (w : Writer) : Option Nat := w.limit.map (· - w.written.length)

/-- Takes the longest prefix there is room for and returns the rest. -/
def accept (w : Writer) (bytes : List UInt8) : Writer × List UInt8 :=
  match w.room with
  | none => ({ w with written := w.written ++ bytes }, [])
  | some room => ({ w with written := w.written ++ bytes.take room }, bytes.drop room)

/-- Writing fails if anything had to be left out, after what fits has been taken. -/
def write (w : Writer) (bytes : List UInt8) : Writer × Except IoError Unit :=
  let (w, rest) := w.accept bytes
  (w, if rest.isEmpty then .ok () else .error .limitReached)

/-- Nothing is lost between the writer and the returned rest. -/
theorem written_accept_append (w : Writer) (bytes : List UInt8) :
    (w.accept bytes).1.written ++ (w.accept bytes).2 = w.written ++ bytes := by
  unfold accept
  split <;> simp

end Writer

/-- There is no exit code if the program was ended by a signal. -/
structure Outcome where
  stdout : List UInt8
  stderr : List UInt8
  code : Option Int
deriving DecidableEq, Repr

end LoxScan
