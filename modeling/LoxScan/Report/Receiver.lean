import LoxScan.Report.Log
import LoxScan.Source.Scan

/-!
# Receivers of reports

Whoever scans a text chooses where its reports go: nowhere, into a list, or into a log.  The scan
goes through the text piece by piece, and an error is handed over in the step that records it.
The choice has no influence on the scan.
-/

namespace LoxScan

inductive Receiver where
  | discard
  | collect (reports : List Report)
  | log (l : Log)
deriving DecidableEq, Repr

namespace Receiver

def report : Receiver → Report → Receiver
  | discard, _ => discard
  | collect reports, r => collect (reports ++ [r])
  | log l, r => log (l.report r)

/-- Only a log has anything to flush. -/
def flush : Receiver → Receiver × Except IoError Unit
  | log l => (log l.flush.1, l.flush.2)
  | receiver => (receiver, .ok ())

def reset : Receiver → Receiver
  | log l => log l.reset
  | receiver => receiver

/-- The bytes that have reached a writer. -/
def written : Receiver → List UInt8
  | log l => l.writer.written
  | _ => []

end Receiver

/-- A scan on its way through a text: the newlines behind it, the tokens and errors found so far,
and the receiver as the reports so far have left it. -/
structure Scanning where
  newlines : Nat
  tokens : List Token
  errors : List LexicalError
  receiver : Receiver
deriving DecidableEq, Repr

namespace Scanning

def start (receiver : Receiver) : Scanning := ⟨0, [], [], receiver⟩

def addToken (s : Scanning) (t : Token) : Scanning := { s with tokens := s.tokens ++ [t] }

/-- An error is reported when it is found. -/
def addError (s : Scanning) (e : LexicalError) : Scanning :=
  { s with errors := s.errors ++ [e], receiver := s.receiver.report ⟨e.line, e.cause.message⟩ }

/-- Goes past one piece, which stands for a token, for an error or for nothing. -/
def step (s : Scanning) (p : Piece) : Scanning :=
  let after := { s with newlines := s.newlines + p.newlines }
  match p.token? (Scan.lineAfter after.newlines) with
  | some token => after.addToken token
  | none =>
    match p.error? (Scan.lineAfter s.newlines) with
    | some error => after.addError error
    | none => after

/-- Past the last piece, the tokens are closed by the mark of the end. -/
def finish (s : Scanning) : Scan :=
  ⟨s.tokens ++ [Token.endOfText (Scan.lineAfter s.newlines)], s.errors⟩

end Scanning

/-- Scans a text and hands over each error when it is found. -/
def Receiver.scan (receiver : Receiver) (source : String) : Scan × Receiver :=
  let s := (Piece.cutAll source.toList).foldl Scanning.step (Scanning.start receiver)
  (s.finish, s.receiver)

end LoxScan
