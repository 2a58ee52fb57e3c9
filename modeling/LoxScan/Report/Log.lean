import LoxScan.Stream.Writer
import LoxScan.Text.Basic

/-!
# Reports and logs

A report says what is wrong with a line, and a log writes each report as a line of text.  The bytes
gather until they are flushed to the writer or until there is no more room for them, and a flush
that meets the writer's limit keeps what did not fit for the next one.  As long as the bytes that
wait fit into the log, the written bytes followed by the pending ones are the lines of all reports
in order; beyond that, bytes are dropped only when the writer takes no more.
-/

namespace LoxScan

structure Report where
  line : UInt32
  message : String
deriving DecidableEq, Repr

namespace Report

def display (r : Report) : String := "[line " ++ toString r.line ++ "] Error: " ++ r.message

/-- A report is written in parts, one after the other. -/
def parts (r : Report) : List String :=
  ["[line ", toString r.line, "] Error: ", r.message, "\n"]

end Report

structure Log where
  writer : Writer
  pending : List UInt8
  reported : Nat
deriving DecidableEq, Repr

namespace Log

def ofWriter (writer : Writer) : Log := ⟨writer, [], 0⟩

/-- So many bytes may wait. -/
def capacity : Nat := 8192

def flush (l : Log) : Log × Except IoError Unit :=
  let (writer, rest) := l.writer.accept l.pending
  ({ l with writer := writer, pending := rest },
    if rest.isEmpty then .ok () else .error .limitReached)

/-- What waits is delivered if further bytes do not fit behind it. -/
def makeRoom (l : Log) (size : Nat) : Log × Except IoError Unit :=
  if l.pending.length + size ≤ capacity then (l, .ok ()) else l.flush

def hold (l : Log) (bytes : List UInt8) : Log := { l with pending := l.pending ++ bytes }

/-- Bytes that fill the whole room are not held but go to the writer.  What cannot be delivered
then is lost. -/
def append (l : Log) (bytes : List UInt8) : Log × Except IoError Unit :=
  match l.makeRoom bytes.length with
  | (l, .error error) => (l, .error error)
  | (l, .ok ()) =>
    if bytes.length < capacity then (l.hold bytes, .ok ())
    else
      let (writer, result) := l.writer.write bytes
      ({ l with writer := writer }, result)

/-- Appends one part after the other up to the first that fails. -/
def appendAll (l : Log) : List (List UInt8) → Log × Except IoError Unit
  | [] => (l, .ok ())
  | part :: parts =>
    match l.append part with
    | (l, .error error) => (l, .error error)
    | (l, .ok ()) => l.appendAll parts

/-- Reporting itself cannot fail and always counts. -/
def report (l : Log) (r : Report) : Log :=
  { (l.appendAll (r.parts.map Text.Utf8.encode)).1 with reported := l.reported + 1 }

def reportAll (l : Log) (reports : List Report) : Log := reports.foldl report l

/-- Gives the log up for its writer, if everything can be delivered. -/
def close (l : Log) : Log × Except IoError Writer :=
  let (l, result) := l.flush
  (l, result.map fun () ↦ l.writer)

/-- Forgets how many reports there were, but not the reports. -/
def reset (l : Log) : Log := { l with reported := 0 }

/-- Every byte that has reached the writer or waits for it. -/
def emitted (l : Log) : List UInt8 := l.writer.written ++ l.pending

def lineOf (r : Report) : List UInt8 := Text.Utf8.encode (r.display ++ "\n")

@[simp] theorem emitted_flush (l : Log) : l.flush.1.emitted = l.emitted :=
  l.writer.written_accept_append l.pending

@[simp] theorem emitted_reset (l : Log) : l.reset.emitted = l.emitted := rfl

@[simp] theorem reported_reportAll (l : Log) (reports : List Report) :
    (l.reportAll reports).reported = l.reported + reports.length := by
  unfold reportAll
  induction reports generalizing l with
  | nil => simp
  | cons r reports ih =>
    rw [List.foldl_cons, ih]
    simp only [report, List.length_cons]
    omega

end Log

end LoxScan
