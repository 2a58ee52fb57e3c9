import LoxScan.Source.Piece

/-!
# Scans

A scan turns the pieces of a source text into tokens and errors.  The only thing that one piece
leaves to the next is the number of newlines so far: a token carries the line on which its lexeme
ends, an error the line on which the offending piece begins.  Scanning never stops at an error.
-/

namespace LoxScan

open Number (Numeral)

namespace Piece

/-- The source cut into pieces, each one as long as its own rule makes it. -/
def cutAll : List Char → List Piece
  | [] => []
  | c :: rest => (cut c rest).1 :: cutAll (cut c rest).2
termination_by source => source.length
decreasing_by exact Nat.lt_succ_of_le (length_cut_le c rest)

/-- Cutting loses nothing and adds nothing. -/
theorem flatMap_text_cutAll (source : List Char) : (cutAll source).flatMap text = source := by
  fun_induction cutAll source with
  | case1 => rfl
  | case2 c rest ih => rw [List.flatMap_cons, ih, cut_append]

/-- The kind of token that a piece stands for.  A word is a keyword if it is spelled like one. -/
def kind? : Piece → Option Token.Kind
  | punctuator p => some (.punctuator p)
  | string _ => some .string
  | number _ => some .number
  | word characters =>
    some (((Token.Keyword.ofSpelling? (String.ofList characters)).map .keyword).getD .identifier)
  | _ => none

/-- A string denotes the characters between its quotes, none of which is an escape. -/
def literal? : Piece → Option Literal
  | string body => some (.string (String.ofList body))
  | number n => some (.number n.value)
  | _ => none

def token? (p : Piece) (line : UInt32) : Option Token :=
  p.kind?.map fun kind ↦ ⟨kind, String.ofList p.text, p.literal?, line⟩

def cause? : Piece → Option LexicalError.Cause
  | stray _ => some .unexpectedCharacter
  | openString _ => some .unterminatedString
  | openComment _ => some .unterminatedComment
  | _ => none

def error? (p : Piece) (line : UInt32) : Option LexicalError :=
  p.cause?.map fun cause ↦ ⟨line, cause⟩

end Piece

/-- The tokens of a source, the last of which marks its end, and the errors found on the way. -/
structure Scan where
  tokens : List Token
  errors : List LexicalError
deriving DecidableEq, Repr

namespace Scan

/-- Lines are numbered from one, in 32 bits. -/
def lineAfter (newlines : Nat) : UInt32 := UInt32.ofNat (newlines + 1)

/-- The tokens of the pieces that follow a given number of newlines. -/
def tokensFrom (newlines : Nat) : List Piece → List Token
  | [] => [Token.endOfText (lineAfter newlines)]
  | p :: pieces =>
    let through := newlines + p.newlines
    (p.token? (lineAfter through)).toList ++ tokensFrom through pieces

/-- The errors of the pieces that follow a given number of newlines. -/
def errorsFrom (newlines : Nat) : List Piece → List LexicalError
  | [] => []
  | p :: pieces =>
    (p.error? (lineAfter newlines)).toList ++ errorsFrom (newlines + p.newlines) pieces

def ofPieces (pieces : List Piece) : Scan := ⟨tokensFrom 0 pieces, errorsFrom 0 pieces⟩

def ofText (source : String) : Scan := ofPieces (Piece.cutAll source.toList)

def reports (s : Scan) : List Report := s.errors.map LexicalError.report

def hadError (s : Scan) : Bool := !s.errors.isEmpty

/-- One line of text for each token. -/
def dump (s : Scan) : String := String.join (s.tokens.map fun token ↦ token.display ++ "\n")

/-- Tokens agree if their literals do as values, errors if they are the same. -/
def tokensAgree (s t : Scan) : Bool :=
  s.tokens.length == t.tokens.length && (s.tokens.zip t.tokens).all fun (a, b) ↦ a.agrees b

def agrees (s t : Scan) : Bool := s.tokensAgree t && s.errors == t.errors

end Scan

end LoxScan
