import LoxScan.Source.Buffer
import LoxScan.Source.Scan

/-!
# Scanners

A scanner goes through a source with two cursors: one at the character with which the current
lexeme begins, and one at the next character.  Its loop makes one call for each lexeme.  The call
decides by the first character what to read, and most of what it reads it takes character by
character.

The scanner is given by its single steps, so that every state on the way is one of them.  Between
two steps it stands at some point of the loop or of a call.
-/

namespace LoxScan

open Number (Numeral)

/-- What is done with the character that begins a lexeme. -/
inductive Rule where
  | single (p : Token.Punctuator)
  | oneOrTwo (one two : Token.Punctuator)
  | slash
  | whitespace
  | newline
  | quote
  | digit
  | letter
  | unexpected
deriving DecidableEq, Repr

def Rule.ofCharacter (c : Char) : Rule :=
  match Piece.single? c, Piece.extensible? c with
  | some p, _ => single p
  | none, some (one, two) => oneOrTwo one two
  | none, none =>
    if c = '/' then slash
    else if c = ' ' ∨ c = '\r' ∨ c = '\t' then whitespace
    else if c = '\n' then newline
    else if c = '"' then quote
    else if Piece.isDigit c then digit
    else if Piece.isWordStart c then letter
    else unexpected

namespace Scanner

/-- Where a scanner stands.  A lexeme that has been read waits to be added as a token, and a problem
that has been found as an error. -/
inductive Point where
  | between
  | opening
  | oneOrTwo (one two : Token.Punctuator)
  | slash
  | lineComment
  | blockComment (line : UInt32)
  | commentEnd
  | string (line : UInt32)
  | stringEnd (line : UInt32)
  | stringValue
  | whole
  | fractionOrEnd
  | fraction
  | numberValue
  | word
  | wordKind
  | token (kind : Token.Kind) (literal : Option Literal)
  | error (line : UInt32) (cause : LexicalError.Cause)
  | finished
deriving DecidableEq, Repr

end Scanner

structure Scanner where
  start : Nat
  current : Nat
  line : UInt32
  tokens : List Token
  errors : List LexicalError
  point : Scanner.Point
deriving DecidableEq, Repr

namespace Scanner

def initial : Scanner := ⟨0, 0, 1, [], [], .between⟩

def goTo (s : Scanner) (point : Point) : Scanner := { s with point }

def forward (s : Scanner) : Scanner := { s with current := s.current + 1 }

/-- Goes past the next character if there is one. -/
def advance (s : Scanner) (v : View) : Scanner :=
  match v.character? s.current with
  | some _ => s.forward
  | none => s

/-- Goes past a character of a class, or leaves the loop that does so. -/
def readWhile (s : Scanner) (v : View) (belongs : Char → Bool) (next : Point) : Scanner :=
  if (v.character? s.current).any belongs then s.advance v else s.goTo next

def countLine (s : Scanner) (c : Char) : Scanner :=
  if c = '\n' then { s with line := s.line + 1 } else s

def addToken (s : Scanner) (kind : Token.Kind) (lexeme : String) (literal : Option Literal) :
    Scanner :=
  { s with tokens := s.tokens ++ [⟨kind, lexeme, literal, s.line⟩] }

def addError (s : Scanner) (line : UInt32) (cause : LexicalError.Cause) : Scanner :=
  { s with errors := s.errors ++ [⟨line, cause⟩] }

def apply (s : Scanner) : Rule → Scanner
  | .single p => s.goTo (.token (.punctuator p) none)
  | .oneOrTwo one two => s.goTo (.oneOrTwo one two)
  | .slash => s.goTo .slash
  | .whitespace => s.goTo .between
  | .newline => { s with line := s.line + 1, point := .between }
  | .quote => s.goTo (.string s.line)
  | .digit => s.goTo .whole
  | .letter => s.goTo .word
  | .unexpected => s.goTo (.error s.line .unexpectedCharacter)

/-- A number in decimal notation, with or without a point. -/
def numeral? (lexeme : String) : Option Numeral :=
  let whole := lexeme.toList.takeWhile Piece.isDigit
  match lexeme.toList.dropWhile Piece.isDigit with
  | [] => if whole = [] then none else some ⟨whole, none⟩
  | c :: fraction =>
    if c = '.' ∧ fraction.all Piece.isDigit ∧ whole ++ fraction ≠ [] then
      some ⟨whole, some fraction⟩
    else none

def step (s : Scanner) (v : View) : Except Fault Scanner :=
  match s.point with
  | .between => v.length.map fun length ↦
    if length ≤ s.current then
      { s with tokens := s.tokens ++ [Token.endOfText s.line], point := .finished }
    else { s with start := s.current, point := .opening }
  | .opening =>
    match v.character? s.current with
    | none => .ok (s.goTo .between)
    | some c => .ok ((s.advance v).apply (Rule.ofCharacter c))
  | .oneOrTwo one two =>
    if v.character? s.current = some '=' then .ok (s.forward.goTo (.token (.punctuator two) none))
    else .ok (s.goTo (.token (.punctuator one) none))
  | .slash =>
    if v.character? s.current = some '/' then .ok (s.forward.goTo .lineComment)
    else if v.character? s.current = some '*' then .ok (s.forward.goTo (.blockComment s.line))
    else .ok (s.goTo (.token (.punctuator .slash) none))
  | .lineComment => .ok (s.readWhile v (· != '\n') .between)
  | .blockComment line =>
    match v.character? s.current with
    | none => .ok (s.goTo (.error line .unterminatedComment))
    | some c =>
      if c = '*' ∧ v.character? (s.current + 1) = some '/' then
        .ok ((s.advance v).goTo .commentEnd)
      else .ok ((s.countLine c).advance v)
  | .commentEnd => .ok ((s.advance v).goTo .between)
  | .string line =>
    match v.character? s.current with
    | none => .ok (s.goTo (.stringEnd line))
    | some c =>
      if c = '"' then .ok (s.goTo (.stringEnd line)) else .ok ((s.countLine c).advance v)
  | .stringEnd line => v.length.map fun length ↦
    if length ≤ s.current then s.goTo (.error line .unterminatedString)
    else (s.advance v).goTo .stringValue
  | .stringValue => (Fault.subtract s.current 1).bind fun last ↦
    (v.slice (s.start + 1) last).map fun text ↦
      s.goTo (.token .string (some (.string text)))
  | .whole => .ok (s.readWhile v Piece.isDigit .fractionOrEnd)
  | .fractionOrEnd =>
    if v.character? s.current = some '.' ∧
        (v.character? (s.current + 1)).any Piece.isDigit then
      .ok ((s.advance v).goTo .fraction)
    else .ok (s.goTo .numberValue)
  | .fraction => .ok (s.readWhile v Piece.isDigit .numberValue)
  | .numberValue => (v.slice s.start s.current).map fun lexeme ↦
    match numeral? lexeme with
    | some n => s.goTo (.token .number (some (.number n.value)))
    | none => s.goTo (.error s.line .invalidNumber)
  | .word => .ok (s.readWhile v Piece.isWordCharacter .wordKind)
  | .wordKind => (v.slice s.start s.current).map fun lexeme ↦
    s.goTo (.token (((Token.Keyword.ofSpelling? lexeme).map .keyword).getD .identifier) none)
  | .token kind literal => (v.slice s.start s.current).map fun lexeme ↦
    (s.addToken kind lexeme literal).goTo .between
  | .error line cause => .ok ((s.addError line cause).goTo .between)
  | .finished => .ok s

/-- The scanner gets from one state to another one in some number of steps. -/
inductive Reaches (v : View) (s : Scanner) : Scanner → Prop where
  | refl : Reaches v s s
  | step {t u : Scanner} (h : Reaches v s t) (hstep : t.step v = .ok u) : Reaches v s u

/-- The call that is under way in one state has returned to the loop in another one. -/
inductive Returns (v : View) : Scanner → Scanner → Prop where
  | last {s t : Scanner} (hstep : s.step v = .ok t) (hpoint : t.point = .between) : Returns v s t
  | step {s t u : Scanner} (hstep : s.step v = .ok t) (hpoint : t.point ≠ .between)
      (h : Returns v t u) : Returns v s u

def result (s : Scanner) : Scan := ⟨s.tokens, s.errors⟩

end Scanner

end LoxScan
