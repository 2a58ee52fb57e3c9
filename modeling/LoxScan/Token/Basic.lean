import LoxScan.Number.Shortest

/-!
# Tokens

A token is a kind, the exact characters it was read from, the value they denote if the kind has
values, and the line on which those characters end.  Tokens are displayed by kind, lexeme and
value, none of them escaped.

Punctuators and keywords are closed families with one spelling each.  Identifiers, strings and
numbers are open families, and the end of the text is a token of its own that has no characters.
-/

namespace LoxScan

namespace Token

inductive Punctuator where
  | leftParen
  | rightParen
  | leftBrace
  | rightBrace
  | comma
  | dot
  | minus
  | plus
  | semicolon
  | slash
  | star
  | bang
  | bangEqual
  | equal
  | equalEqual
  | greater
  | greaterEqual
  | less
  | lessEqual
deriving DecidableEq, Repr

namespace Punctuator

def all : List Punctuator :=
  [.leftParen, .rightParen, .leftBrace, .rightBrace, .comma, .dot, .minus, .plus, .semicolon,
   .slash, .star, .bang, .bangEqual, .equal, .equalEqual, .greater, .greaterEqual, .less,
   .lessEqual]

def spelling : Punctuator → List Char
  | leftParen => ['(']
  | rightParen => [')']
  | leftBrace => ['{']
  | rightBrace => ['}']
  | comma => [',']
  | dot => ['.']
  | minus => ['-']
  | plus => ['+']
  | semicolon => [';']
  | slash => ['/']
  | star => ['*']
  | bang => ['!']
  | bangEqual => ['!', '=']
  | equal => ['=']
  | equalEqual => ['=', '=']
  | greater => ['>']
  | greaterEqual => ['>', '=']
  | less => ['<']
  | lessEqual => ['<', '=']

def name : Punctuator → String
  | leftParen => "LEFT_PAREN"
  | rightParen => "RIGHT_PAREN"
  | leftBrace => "LEFT_BRACE"
  | rightBrace => "RIGHT_BRACE"
  | comma => "COMMA"
  | dot => "DOT"
  | minus => "MINUS"
  | plus => "PLUS"
  | semicolon => "SEMICOLON"
  | slash => "SLASH"
  | star => "STAR"
  | bang => "BANG"
  | bangEqual => "BANG_EQUAL"
  | equal => "EQUAL"
  | equalEqual => "EQUAL_EQUAL"
  | greater => "GREATER"
  | greaterEqual => "GREATER_EQUAL"
  | less => "LESS"
  | lessEqual => "LESS_EQUAL"

end Punctuator

inductive Keyword where
  | kwAnd
  | kwClass
  | kwElse
  | kwFalse
  | kwFor
  | kwFun
  | kwIf
  | kwNil
  | kwOr
  | kwPrint
  | kwReturn
  | kwSuper
  | kwThis
  | kwTrue
  | kwVar
  | kwWhile
deriving DecidableEq, Repr

namespace Keyword

/-- The keywords in the order in which they are listed. -/
def all : List Keyword :=
  [.kwAnd, .kwClass, .kwElse, .kwFalse, .kwFor, .kwFun, .kwIf, .kwNil, .kwOr, .kwPrint, .kwReturn,
   .kwSuper, .kwThis, .kwTrue, .kwVar, .kwWhile]

def spelling : Keyword → String
  | kwAnd => "and"
  | kwClass => "class"
  | kwElse => "else"
  | kwFalse => "false"
  | kwFor => "for"
  | kwFun => "fun"
  | kwIf => "if"
  | kwNil => "nil"
  | kwOr => "or"
  | kwPrint => "print"
  | kwReturn => "return"
  | kwSuper => "super"
  | kwThis => "this"
  | kwTrue => "true"
  | kwVar => "var"
  | kwWhile => "while"

def name : Keyword → String
  | kwAnd => "AND"
  | kwClass => "CLASS"
  | kwElse => "ELSE"
  | kwFalse => "FALSE"
  | kwFor => "FOR"
  | kwFun => "FUN"
  | kwIf => "IF"
  | kwNil => "NIL"
  | kwOr => "OR"
  | kwPrint => "PRINT"
  | kwReturn => "RETURN"
  | kwSuper => "SUPER"
  | kwThis => "THIS"
  | kwTrue => "TRUE"
  | kwVar => "VAR"
  | kwWhile => "WHILE"

/-- Keywords are told from identifiers by their exact spelling, letter case included. -/
def ofSpelling? (word : String) : Option Keyword := all.find? fun k ↦ k.spelling == word

end Keyword

inductive Kind where
  | punctuator (p : Punctuator)
  | identifier
  | string
  | number
  | keyword (k : Keyword)
  | endOfText
deriving DecidableEq, Repr

namespace Kind

def all : List Kind :=
  Punctuator.all.map punctuator ++ [identifier, string, number] ++ Keyword.all.map keyword ++
    [endOfText]

def name : Kind → String
  | punctuator p => p.name
  | identifier => "IDENTIFIER"
  | string => "STRING"
  | number => "NUMBER"
  | keyword k => k.name
  | endOfText => "EOF"

def isKeyword : Kind → Bool
  | keyword _ => true
  | _ => false

end Kind

end Token

open Number (Binary64)

inductive Literal where
  | string (text : String)
  | number (value : Binary64)
deriving DecidableEq, Repr

namespace Literal

def display : Literal → String
  | string text => text
  | number value => value.display

def text? : Literal → Option String
  | string text => some text
  | number _ => none

def number? : Literal → Option Binary64
  | string _ => none
  | number value => some value

/-- Texts are compared by their characters and numbers by their values. -/
def agrees : Literal → Literal → Bool
  | string s, string t => s == t
  | number x, number y => x.agrees y
  | _, _ => false

end Literal

structure Token where
  kind : Token.Kind
  lexeme : String
  literal : Option Literal
  line : UInt32
deriving DecidableEq, Repr

namespace Token

/-- The token that closes every scan. -/
def endOfText (line : UInt32) : Token := ⟨.endOfText, "", none, line⟩

/-- A missing value is shown as `null`. -/
def display (t : Token) : String :=
  t.kind.name ++ " " ++ t.lexeme ++ " " ++ (t.literal.map Literal.display).getD "null"

/-- A token whose value is NaN does not agree even with itself. -/
def agrees (t u : Token) : Bool :=
  t.kind == u.kind && t.lexeme == u.lexeme && t.line == u.line &&
    match t.literal, u.literal with
    | none, none => true
    | some v, some w => v.agrees w
    | _, _ => false

end Token

end LoxScan
