/-!
What the bits of a double stand for, in integers. Number text is computed from this view alone, so
no digit depends on floating-point arithmetic.
-/

namespace Lox.Decimal

/-- The finite double `mantissa * 2 ^ exponent`, negated if `negative`. Zeros keep their sign. -/
structure Binary where
  negative : Bool
  mantissa : Nat
  exponent : Int
deriving DecidableEq

/-- A double as text sees it: all bit patterns of NaN are one. -/
inductive Reading
  | nan
  | infinite (negative : Bool)
  | finite (value : Binary)
deriving DecidableEq

/-- The weight of the leading one that normal numbers have and do not store. -/
def hidden : Nat := Nat.pow 2 52

/-- The three fields of the interchange format: a sign bit, eleven exponent bits and fifty-two
    fraction bits. -/
def Reading.ofFloat (x : Float) : Reading :=
  let bits := x.toBits.toNat
  let negative := bits / Nat.pow 2 63 == 1
  let field : Nat := bits / hidden % 2048
  let fraction := bits % hidden
  if field = 2047 then
    if fraction = 0 then .infinite negative else .nan
  else if field = 0 then
    .finite ⟨negative, fraction, -1074⟩
  else
    .finite ⟨negative, hidden + fraction, (field : Int) - 1075⟩

/-- The size of an integral double, and nothing for one with a fraction. -/
def Binary.whole? (x : Binary) : Option Nat :=
  if 0 ≤ x.exponent then
    some (x.mantissa * Nat.pow 2 x.exponent.toNat)
  else
    let unit := Nat.pow 2 (-x.exponent).toNat
    if x.mantissa % unit = 0 then some (x.mantissa / unit) else none

end Lox.Decimal
