import Lox.Syntax.Text
import Lox.Proofs.Decimal.Notation

namespace Lox

open Decimal

variable {value value' : Float} {x x' : Binary} {text text' : List Char} {p : ℚ}

/-- A finite number is written as digits around a point that round to it. -/
theorem Literal.exists_pointed (h : Reading.ofFloat value = .finite x) :
    ∃ text q, (number value).chars = signed x.negative text ∧ Pointed text q ∧ x.Rounds q := by
  rw [chars]
  cases hwhole : x.whole? with
  | none =>
    refine ⟨_, _, Style.chars_of_inexact h fun n hn => ?_,
      Scientific.pointed_positional (Binary.shortest_exponent_neg hwhole .up),
      x.rounds_shortest .up⟩
    rw [hwhole] at hn
    cases hn
  | some n =>
    refine ⟨digits n ++ ['.', '0'], n, ?_, pointed_digits n, ?_⟩
    · rw [Style.chars_of_exact h hwhole rfl]
      cases x.negative <;> cases n <;> rfl
    · rw [← Binary.value_of_whole? hwhole]
      exact x.rounds_value

/-- Different finite numbers are written differently. -/
theorem Literal.eq_of_chars_number (h : Reading.ofFloat value = .finite x)
    (h' : Reading.ofFloat value' = .finite x')
    (heq : (number value).chars = (number value').chars) : value = value' := by
  obtain ⟨text, q, htext, hpointed, hrounds⟩ := exists_pointed h
  obtain ⟨text', q', htext', hpointed', hrounds'⟩ := exists_pointed h'
  rw [htext, htext'] at heq
  obtain ⟨hnegative, rfl⟩ := signed_inj hpointed hpointed' heq
  rw [hpointed.unique hpointed'] at hrounds
  obtain ⟨hmantissa, hexponent⟩ := hrounds.unique (Reading.ofFloat_eq_finite h).1
    (Reading.ofFloat_eq_finite h').1 hrounds'
  obtain ⟨negative, mantissa, exponent⟩ := x
  obtain ⟨negative', mantissa', exponent'⟩ := x'
  cases hnegative
  cases hmantissa
  cases hexponent
  exact Reading.ofFloat_inj h h'

/-- The text of a number starts with a digit or a sign, and has a point besides these. -/
theorem Literal.exists_chars_number (h : Reading.ofFloat value = .finite x) :
    (∃ c cs, (number value).chars = c :: cs ∧ (c.isDigit ∨ c = '-')) ∧
      ∀ c ∈ (number value).chars, c.isDigit ∨ c = '.' ∨ c = '-' := by
  obtain ⟨text, q, htext, hpointed, -⟩ := exists_pointed h
  obtain ⟨d, ds, hcons, hd⟩ := hpointed.exists_cons
  have hmem : ∀ c ∈ text, c.isDigit ∨ c = '.' := fun c => hpointed.isDigit_or_eq
  rw [htext]
  cases x.negative with
  | false => exact ⟨⟨d, ds, hcons, .inl hd⟩, fun c hc => (hmem c hc).imp_right .inl⟩
  | true =>
    refine ⟨⟨'-', text, rfl, .inr rfl⟩, fun c hc => ?_⟩
    obtain rfl | hc := List.mem_cons.mp hc
    · exact .inr (.inr rfl)
    · exact (hmem c hc).imp_right .inl

end Lox
