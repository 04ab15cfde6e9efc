import Lox.Decimal.Binary

/-!
The shortest decimal that reads back as a given double, and of those the nearest. Everything is
counted in one decimal unit small enough to make the double and the ends of its rounding interval
whole numbers, so the search compares natural numbers only.
-/

namespace Lox.Decimal

/-- The number `coefficient * 10 ^ exponent`. -/
structure Scientific where
  coefficient : Nat
  exponent : Int
deriving DecidableEq

/-- Which of two equally near decimals is taken. -/
inductive Tie
  | up
  | even
deriving DecidableEq

/-- A positive double and the interval of reals that round to it, counted in units of
    `10 ^ (-scale)`. The ends belong to the interval when `closed`. -/
structure Neighbourhood where
  low : Nat
  middle : Nat
  high : Nat
  closed : Bool
  scale : Nat
deriving DecidableEq

/-- A quarter of the distance to the next double is the coarsest binary unit in which both halfway
    points are whole; below a power of two the doubles lie twice as dense. Halfway points round to
    the even mantissa. -/
def Binary.neighbourhood (x : Binary) : Neighbourhood :=
  let below := if x.mantissa = hidden ∧ -1074 < x.exponent then 1 else 2
  let quarter := x.exponent - 2
  let scale := (-quarter).toNat
  let unit := Nat.pow 2 quarter.toNat * Nat.pow 5 scale
  { low := (4 * x.mantissa - below) * unit
    middle := 4 * x.mantissa * unit
    high := (4 * x.mantissa + 2) * unit
    closed := x.mantissa % 2 == 0
    scale }

namespace Neighbourhood

def contains (n : Neighbourhood) (point : Nat) : Bool :=
  if n.closed then n.low ≤ point && point ≤ n.high else n.low < point && point < n.high

/-- The multiple of `grid` inside the neighbourhood that is nearest to its middle, as a number of
    grid steps. Only the two multiples around the middle can be. -/
def nearest? (n : Neighbourhood) (tie : Tie) (grid : Nat) : Option Nat :=
  let steps := n.middle / grid
  let below := steps * grid
  let above := below + grid
  if n.contains below then
    if n.contains above then
      let left := n.middle - below
      let right := above - n.middle
      if left < right then some steps
      else if right < left then some (steps + 1)
      else match tie with
        | .up => some (steps + 1)
        | .even => some (steps + steps % 2)
    else some steps
  else if n.contains above then some (steps + 1)
  else none

/-- Tries the grids `10 ^ places`, `10 ^ (places - 1)`, … and takes the first that meets the
    neighbourhood. The finest grid meets it in the middle itself. -/
def shortestFrom (n : Neighbourhood) (tie : Tie) : Nat → Scientific
  | 0 => ⟨n.middle, -n.scale⟩
  | places + 1 =>
    match n.nearest? tie (Nat.pow 10 (places + 1)) with
    | some steps => ⟨steps, (places + 1 : Nat) - n.scale⟩
    | none => n.shortestFrom tie places

end Neighbourhood

/-- The digits of a nonzero double. The coarsest grid has the power of ten just above it. -/
def Binary.shortest (x : Binary) (tie : Tie) : Scientific :=
  let n := x.neighbourhood
  n.shortestFrom tie (Nat.toDigits 10 n.middle).length

end Lox.Decimal
