import Lox.Decimal.Notation

/-!
Tokens of Lox: punctuation and keywords with their spellings, literals with their payloads, and the
place in the source each token was found.
-/

namespace Lox

inductive Punct
  | leftParen | rightParen | leftBrace | rightBrace
  | comma | dot | minus | plus | semicolon | slash | star
  | bang | bangEqual | equal | equalEqual
  | greater | greaterEqual | less | lessEqual
deriving DecidableEq

namespace Punct

def name : Punct → String
  | leftParen => "LEFT_PAREN"
  | rightParen => "RIGHT_PAREN"
  | leftBrace => "LEFT_BRACE"
  | rightBrace => "RIGHT_BRACE"
  | comma => "COMMA"
  | dot => "DOT"
  | minus => "MINUS"
  | plus => "PLUS"
  | semicolon => "SEMICOLON"
  | slash => "SLASH"
  | star => "STAR"
  | bang => "BANG"
  | bangEqual => "BANG_EQUAL"
  | equal => "EQUAL"
  | equalEqual => "EQUAL_EQUAL"
  | greater => "GREATER"
  | greaterEqual => "GREATER_EQUAL"
  | less => "LESS"
  | lessEqual => "LESS_EQUAL"

def spelling : Punct → List Char
  | leftParen => ['(']
  | rightParen => [')']
  | leftBrace => ['\x7b']
  | rightBrace => ['\x7d']
  | comma => [',']
  | dot => ['.']
  | minus => ['-']
  | plus => ['+']
  | semicolon => [';']
  | slash => ['/']
  | star => ['*']
  | bang => ['!']
  | bangEqual => ['!', '=']
  | equal => ['=']
  | equalEqual => ['=', '=']
  | greater => ['>']
  | greaterEqual => ['>', '=']
  | less => ['<']
  | lessEqual => ['<', '=']

def all : List Punct :=
  [leftParen, rightParen, leftBrace, rightBrace, comma, dot, minus, plus, semicolon, slash, star,
    bang, bangEqual, equal, equalEqual, greater, greaterEqual, less, lessEqual]

def ofSpelling? (text : List Char) : Option Punct :=
  all.find? fun p => p.spelling = text

end Punct

inductive Keyword
  | and | «class» | «else» | false | «fun» | «for» | «if» | nil
  | or | print | «return» | super | this | true | var | «while»
deriving DecidableEq

namespace Keyword

def name : Keyword → String
  | and => "AND"
  | «class» => "CLASS"
  | «else» => "ELSE"
  | false => "FALSE"
  | «fun» => "FUN"
  | «for» => "FOR"
  | «if» => "IF"
  | nil => "NIL"
  | or => "OR"
  | print => "PRINT"
  | «return» => "RETURN"
  | super => "SUPER"
  | this => "THIS"
  | true => "TRUE"
  | var => "VAR"
  | «while» => "WHILE"

def spelling : Keyword → List Char
  | and => ['a', 'n', 'd']
  | «class» => ['c', 'l', 'a', 's', 's']
  | «else» => ['e', 'l', 's', 'e']
  | false => ['f', 'a', 'l', 's', 'e']
  | «fun» => ['f', 'u', 'n']
  | «for» => ['f', 'o', 'r']
  | «if» => ['i', 'f']
  | nil => ['n', 'i', 'l']
  | or => ['o', 'r']
  | print => ['p', 'r', 'i', 'n', 't']
  | «return» => ['r', 'e', 't', 'u', 'r', 'n']
  | super => ['s', 'u', 'p', 'e', 'r']
  | this => ['t', 'h', 'i', 's']
  | true => ['t', 'r', 'u', 'e']
  | var => ['v', 'a', 'r']
  | «while» => ['w', 'h', 'i', 'l', 'e']

def all : List Keyword :=
  [and, «class», «else», false, «fun», «for», «if», nil, or, print, «return», super, this, true,
    var, «while»]

def ofSpelling? (text : List Char) : Option Keyword :=
  all.find? fun k => k.spelling = text

end Keyword

/-- What a token is, with the payload of a literal. The end of the source is a token of its own. -/
inductive Kind
  | punct (p : Punct)
  | keyword (k : Keyword)
  | identifier
  | string (contents : String)
  | number (value : Float)
  | eof

def Kind.name : Kind → String
  | punct p => p.name
  | keyword k => k.name
  | identifier => "IDENTIFIER"
  | string _ => "STRING"
  | number _ => "NUMBER"
  | eof => "EOF"

/-- A token, the source text it was read from, the line on which that text ends and the byte at
    which it starts. -/
structure Token where
  kind : Kind
  lexeme : String
  line : Nat
  offset : Nat

namespace Token

def atEnd (line offset : Nat) : Token :=
  ⟨.eof, "", line, offset⟩

instance : Inhabited Token := ⟨atEnd 1 0⟩

/-- Literal numbers in a token listing keep a decimal place when a machine integer can hold them. -/
def numberStyle : Decimal.Style where
  exact n := n < Nat.pow 2 63
  suffix := ['.', '0']
  signedZero := false

/-- The literal column of a token listing. -/
def payload (t : Token) : String :=
  match t.kind with
  | .string contents => contents
  | .number value => numberStyle.write value
  | _ => "null"

/-- A line of a token listing. -/
def text (t : Token) : String :=
  t.kind.name ++ " " ++ t.lexeme ++ " " ++ t.payload

end Token

end Lox
