import Lox.Token

/-!
Tokens as JSON, one object to a line and without blanks.
-/

namespace Lox.Text.Json

/-- Control characters are escaped, by a letter where there is one and by four hexadecimal digits
    otherwise. -/
def escaped (c : Char) : List Char :=
  if c = '"' then ['\\', '"']
  else if c = '\\' then ['\\', '\\']
  else if c = '\n' then ['\\', 'n']
  else if c = '\r' then ['\\', 'r']
  else if c = '\t' then ['\\', 't']
  else if c = '\x08' then ['\\', 'b']
  else if c = '\x0c' then ['\\', 'f']
  else if c.toNat < 0x20 then
    ['\\', 'u', '0', '0', Nat.digitChar (c.toNat / 16), Nat.digitChar (c.toNat % 16)]
  else [c]

def string (s : String) : List Char :=
  '"' :: s.toList.flatMap escaped ++ ['"']

/-- Numbers from `10 ^ (-5)` up to `10 ^ 16` are written without an exponent and with at least one
    decimal place. There is no number for an infinity or for NaN. -/
def number (x : Float) : List Char :=
  match Decimal.Reading.ofFloat x with
  | .nan | .infinite _ => "null".toList
  | .finite x =>
    let body :=
      if x.mantissa = 0 then "0.0".toList
      else
        let shortest := x.shortest .even
        if -5 ≤ shortest.magnitude ∧ shortest.magnitude < 16 then
          if 0 ≤ shortest.exponent then shortest.positional ++ ".0".toList
          else shortest.positional
        else shortest.exponential
    Decimal.signed x.negative body

def kind (k : Kind) : List Char :=
  match k with
  | .string contents => "\x7b\"STRING\":".toList ++ string contents ++ "\x7d".toList
  | .number value => "\x7b\"NUMBER\":".toList ++ number value ++ "\x7d".toList
  | k => string k.name

def token (t : Token) : String :=
  String.ofList ("\x7b\"token_type\":".toList ++ kind t.kind ++ ",\"lexeme\":".toList ++
    string t.lexeme ++ ",\"line\":".toList ++ Decimal.digits t.line ++ ",\"offset\":".toList ++
    Decimal.digits t.offset ++ "\x7d".toList)

end Lox.Text.Json
