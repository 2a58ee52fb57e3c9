import LoxScan.Number.Binary64
import LoxScan.Report.Log
import LoxScan.Token.Basic

/-!
# Pieces of source text

Source text is cut from left to right into pieces: blanks, comments, lexemes, stray characters,
and a string or block comment that is never closed.  Every piece holds its own characters, so the
text of the pieces is the source itself, and every step of the cut consumes at least one of them.
A piece decides on its own which token or error it stands for, given the line.  An error is a cause
together with the line on which the offending piece begins.
-/

namespace LoxScan

namespace LexicalError

inductive Cause where
  | unexpectedCharacter
  | unterminatedString
  | unterminatedComment
  | invalidNumber
deriving DecidableEq, Repr

def Cause.message : Cause → String
  | unexpectedCharacter => "Unexpected character."
  | unterminatedString => "Unterminated string."
  | unterminatedComment => "Unterminated multiline comment."
  | invalidNumber => "Invalid number."

end LexicalError

structure LexicalError where
  line : UInt32
  cause : LexicalError.Cause
deriving DecidableEq, Repr

namespace LexicalError

def message (e : LexicalError) : String := e.cause.message

def report (e : LexicalError) : Report := ⟨e.line, e.message⟩

/-- An error is displayed by itself, whether or not it is reported. -/
def display (e : LexicalError) : String := "[line " ++ toString e.line ++ "] Error: " ++ e.message

theorem display_report (e : LexicalError) : e.report.display = e.display := rfl

end LexicalError

open Number (Numeral)

inductive Piece where
  | blank (c : Char)
  | lineComment (body : List Char)
  | blockComment (body : List Char)
  | punctuator (p : Token.Punctuator)
  | string (body : List Char)
  | number (n : Numeral)
  | word (characters : List Char)
  | stray (c : Char)
  | openString (body : List Char)
  | openComment (body : List Char)
deriving DecidableEq, Repr

namespace Piece

def isBlank (c : Char) : Bool := c == ' ' || c == '\r' || c == '\t' || c == '\n'

/-- Digits and letters are those of ASCII. -/
def isDigit (c : Char) : Bool := '0' ≤ c && c ≤ '9'

def isWordStart (c : Char) : Bool := ('a' ≤ c && c ≤ 'z') || ('A' ≤ c && c ≤ 'Z') || c == '_'

def isWordCharacter (c : Char) : Bool := isWordStart c || isDigit c

/-- The characters of the source that a piece covers. -/
def text : Piece → List Char
  | blank c => [c]
  | lineComment body => '/' :: '/' :: body
  | blockComment body => '/' :: '*' :: body ++ ['*', '/']
  | punctuator p => p.spelling
  | string body => '"' :: body ++ ['"']
  | number n => n.text
  | word characters => characters
  | stray c => [c]
  | openString body => '"' :: body
  | openComment body => '/' :: '*' :: body

def newlines (p : Piece) : Nat := p.text.count '\n'

/-- The characters before the first `*/` and those after it. -/
def untilCommentEnd? : List Char → Option (List Char × List Char)
  | '*' :: '/' :: rest => some ([], rest)
  | [] => none
  | c :: rest => (untilCommentEnd? rest).map fun (body, after) ↦ (c :: body, after)

/-- The punctuators that no other punctuator extends. -/
def single? : Char → Option Token.Punctuator
  | '(' => some .leftParen
  | ')' => some .rightParen
  | '{' => some .leftBrace
  | '}' => some .rightBrace
  | ',' => some .comma
  | '.' => some .dot
  | '-' => some .minus
  | '+' => some .plus
  | ';' => some .semicolon
  | '*' => some .star
  | _ => none

/-- The punctuators that a directly following `=` extends, each with its extension. -/
def extensible? : Char → Option (Token.Punctuator × Token.Punctuator)
  | '!' => some (.bang, .bangEqual)
  | '=' => some (.equal, .equalEqual)
  | '<' => some (.less, .lessEqual)
  | '>' => some (.greater, .greaterEqual)
  | _ => none

def cutSlash : List Char → Piece × List Char
  | '/' :: rest => (lineComment (rest.takeWhile (· != '\n')), rest.dropWhile (· != '\n'))
  | '*' :: rest =>
    match untilCommentEnd? rest with
    | some (body, after) => (blockComment body, after)
    | none => (openComment rest, [])
  | rest => (punctuator .slash, rest)

def cutString (rest : List Char) : Piece × List Char :=
  match rest.dropWhile (· != '"') with
  | [] => (openString rest, [])
  | _ :: after => (string (rest.takeWhile (· != '"')), after)

/-- A point belongs to a number only if a digit follows it. -/
def cutNumber (characters : List Char) : Piece × List Char :=
  let whole := characters.takeWhile isDigit
  match characters.dropWhile isDigit with
  | '.' :: d :: rest =>
    if isDigit d then
      (number ⟨whole, some ((d :: rest).takeWhile isDigit)⟩, (d :: rest).dropWhile isDigit)
    else (number ⟨whole, none⟩, '.' :: d :: rest)
  | rest => (number ⟨whole, none⟩, rest)

/-- The first piece of a non-empty text and what follows it. -/
def cut (c : Char) (rest : List Char) : Piece × List Char :=
  if isBlank c then (blank c, rest)
  else if c = '/' then cutSlash rest
  else if c = '"' then cutString rest
  else if isDigit c then cutNumber (c :: rest)
  else if isWordStart c then
    (word (c :: rest.takeWhile isWordCharacter), rest.dropWhile isWordCharacter)
  else
    match single? c, extensible? c, rest with
    | some p, _, _ => (punctuator p, rest)
    | none, some (_, extended), '=' :: after => (punctuator extended, after)
    | none, some (plain, _), _ => (punctuator plain, rest)
    | none, none, _ => (stray c, rest)

theorem untilCommentEnd?_append {cs body after : List Char}
    (h : untilCommentEnd? cs = some (body, after)) : body ++ '*' :: '/' :: after = cs := by
  fun_induction untilCommentEnd? cs generalizing body after with
  | case1 rest =>
    obtain ⟨rfl, rfl⟩ : [] = body ∧ rest = after := by simpa using h
    rfl
  | case2 => simp at h
  | case3 c rest _ ih =>
    obtain ⟨⟨inner, tail⟩, hinner, heq⟩ := Option.map_eq_some_iff.1 h
    obtain ⟨rfl, rfl⟩ : c :: inner = body ∧ tail = after := by simpa using heq
    simp [ih hinner]

theorem cutSlash_append (rest : List Char) :
    (cutSlash rest).1.text ++ (cutSlash rest).2 = '/' :: rest := by
  fun_cases cutSlash rest with
  | case1 rest => simp [text, List.takeWhile_append_dropWhile]
  | case2 rest body after h => simp [text, ← untilCommentEnd?_append h]
  | case3 rest h => simp [text]
  | case4 rest => simp [text, Token.Punctuator.spelling]

theorem cutString_append (rest : List Char) :
    (cutString rest).1.text ++ (cutString rest).2 = '"' :: rest := by
  have hsplit : rest.takeWhile (· != '"') ++ rest.dropWhile (· != '"') = rest :=
    List.takeWhile_append_dropWhile
  fun_cases cutString rest with
  | case1 h => simp [text]
  | case2 c after h =>
    have hc : c = '"' := by
      have := List.head?_dropWhile_not (· != '"') rest
      simp_all
    rw [h, hc] at hsplit
    simp [text, hsplit]

theorem cutNumber_append (characters : List Char) :
    (cutNumber characters).1.text ++ (cutNumber characters).2 = characters := by
  have hsplit : characters.takeWhile isDigit ++ characters.dropWhile isDigit = characters :=
    List.takeWhile_append_dropWhile
  fun_cases cutNumber characters with
  | case1 whole d rest h hd =>
    rw [h] at hsplit
    simp only [text, Numeral.text, List.append_assoc, List.cons_append,
      List.takeWhile_append_dropWhile]
    exact hsplit
  | case2 whole d rest h hd =>
    rw [h] at hsplit
    simpa [text, Numeral.text] using hsplit
  | case3 whole h =>
    simp only [text, Numeral.text, List.append_nil]
    exact hsplit

theorem spelling_of_single? {c : Char} {p : Token.Punctuator} (h : single? c = some p) :
    p.spelling = [c] := by
  unfold single? at h
  split at h <;> simp_all [Token.Punctuator.spelling] <;> subst h <;> rfl

theorem spelling_of_extensible? {c : Char} {plain extended : Token.Punctuator}
    (h : extensible? c = some (plain, extended)) :
    plain.spelling = [c] ∧ extended.spelling = [c, '='] := by
  unfold extensible? at h
  split at h <;> simp at h <;> obtain ⟨rfl, rfl⟩ := h <;> exact ⟨rfl, rfl⟩

/-- The first piece and the rest are the whole text. -/
theorem cut_append (c : Char) (rest : List Char) :
    (cut c rest).1.text ++ (cut c rest).2 = c :: rest := by
  unfold cut
  split
  · rfl
  split
  · next h => rw [cutSlash_append, h]
  split
  · next h => rw [cutString_append, h]
  split
  · exact cutNumber_append (c :: rest)
  split
  · simp [text, List.takeWhile_append_dropWhile]
  split
  · next h => simp [text, spelling_of_single? h]
  · next h => simp [text, (spelling_of_extensible? h).2]
  · next h _ => simp [text, (spelling_of_extensible? h).1]
  · rfl

theorem text_cut_ne_nil (c : Char) (rest : List Char) : (cut c rest).1.text ≠ [] := by
  unfold cut
  split
  · simp [text]
  split
  · fun_cases cutSlash rest <;> simp [text, Token.Punctuator.spelling]
  split
  · fun_cases cutString rest <;> simp [text]
  split
  · next h =>
    have hwhole : (c :: rest).takeWhile isDigit ≠ [] := by simp [h]
    fun_cases cutNumber (c :: rest) with
    | case1 => simp [text, Numeral.text]
    | case2 => exact fun hnil ↦ hwhole (List.append_eq_nil_iff.1 hnil).1
    | case3 => exact fun hnil ↦ hwhole (List.append_eq_nil_iff.1 hnil).1
  split
  · simp [text]
  split
  · next h => simp [text, spelling_of_single? h]
  · next h => simp [text, (spelling_of_extensible? h).2]
  · next h _ => simp [text, (spelling_of_extensible? h).1]
  · simp [text]

/-- Every cut makes the text shorter. -/
theorem length_cut_le (c : Char) (rest : List Char) : (cut c rest).2.length ≤ rest.length := by
  have hlength := congrArg List.length (cut_append c rest)
  have hpositive := List.length_pos_iff.2 (text_cut_ne_nil c rest)
  simp only [List.length_append, List.length_cons] at hlength
  omega

end Piece

end LoxScan
