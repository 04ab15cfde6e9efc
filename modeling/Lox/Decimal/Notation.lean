import Lox.Decimal.Shortest

/-!
Written forms of numbers. `Scientific.positional` and `Scientific.exponential` lay out given digits;
`Style.write` is the printer for the forms without an exponent, one `Style` for each place where the
language shows a number.
-/

namespace Lox.Decimal

/-- Decimal digits, most significant first. -/
def digits (n : Nat) : List Char :=
  Nat.toDigits 10 n

/-- Writes without an exponent: zeros fill up to the point on either side. -/
def Scientific.positional (x : Scientific) : List Char :=
  let ds := digits x.coefficient
  if 0 ≤ x.exponent then
    ds ++ List.replicate x.exponent.toNat '0'
  else
    let places := (-x.exponent).toNat
    if places < ds.length then
      ds.take (ds.length - places) ++ '.' :: ds.drop (ds.length - places)
    else
      '0' :: '.' :: List.replicate (places - ds.length) '0' ++ ds

/-- The power of ten of the first digit. -/
def Scientific.magnitude (x : Scientific) : Int :=
  x.exponent + (digits x.coefficient).length - 1

/-- One digit before the point, and an exponent that always shows its sign. -/
def Scientific.exponential (x : Scientific) : List Char :=
  let sign := if x.magnitude < 0 then '-' else '+'
  let power := digits x.magnitude.natAbs
  match digits x.coefficient with
  | [] => []
  | [d] => d :: 'e' :: sign :: power
  | d :: ds => d :: '.' :: ds ++ 'e' :: sign :: power

/-- How a number is shown: which whole numbers are written with all their digits, what follows
    those, and whether a zero shows its sign. Every other number has its shortest digits. -/
structure Style where
  exact : Nat → Bool
  suffix : List Char
  signedZero : Bool

def signed (negative : Bool) (text : List Char) : List Char :=
  if negative then '-' :: text else text

def Style.chars (style : Style) (x : Float) : List Char :=
  match Reading.ofFloat x with
  | .nan => "NaN".toList
  | .infinite negative => signed negative "inf".toList
  | .finite x =>
    match x.whole?.filter style.exact with
    | some n => signed (x.negative && (n != 0 || style.signedZero)) (digits n ++ style.suffix)
    | none => signed x.negative (x.shortest .up).positional

def Style.write (style : Style) (x : Float) : String :=
  String.ofList (style.chars x)

end Lox.Decimal
