import Lox.Decimal.Binary

namespace Lox.Decimal

variable {x y : Float} {b : Binary}

theorem hidden_eq : hidden = 4503599627370496 :=
  rfl

/-- The double has as many digits as fit, except for the smallest exponent. -/
structure Binary.Canonical (b : Binary) : Prop where
  mantissa_lt : b.mantissa < 2 * hidden
  le_exponent : -1074 ≤ b.exponent
  eq_of_lt : b.mantissa < hidden → b.exponent = -1074

/-- The bit pattern of a double. -/
def Binary.bits (b : Binary) : Nat :=
  let size := if b.mantissa < hidden then b.mantissa
    else (b.exponent + 1075).toNat * hidden + (b.mantissa - hidden)
  if b.negative then Nat.pow 2 63 + size else size

/-- A bit pattern is a sign in front of an exponent field and a fraction. -/
theorem bits_eq_fields {bits : Nat} (h : bits < 18446744073709551616) :
    bits = if (bits / Nat.pow 2 63 == 1) = true
      then Nat.pow 2 63 + (bits / hidden % 2048 * hidden + bits % hidden)
      else bits / hidden % 2048 * hidden + bits % hidden := by
  change bits = if (bits / 9223372036854775808 == 1) = true
    then 9223372036854775808 + (bits / 4503599627370496 % 2048 * 4503599627370496 +
      bits % 4503599627370496)
    else bits / 4503599627370496 % 2048 * 4503599627370496 + bits % 4503599627370496
  split
  · rename_i hnegative
    rw [beq_iff_eq] at hnegative
    omega
  · rename_i hnegative
    rw [beq_iff_eq] at hnegative
    omega

/-- What is read of a finite double has its bits and its sign. -/
theorem Reading.ofFloat_eq_finite (h : Reading.ofFloat x = .finite b) :
    b.Canonical ∧ x.toBits.toNat = b.bits ∧ b.negative = (x.toBits.toNat / Nat.pow 2 63 == 1) := by
  have hlt : x.toBits.toNat < 18446744073709551616 := x.toBits.toNat_lt
  rw [Reading.ofFloat] at h
  generalize x.toBits.toNat = bits at h hlt ⊢
  have hsign := bits_eq_fields hlt
  have hfraction : bits % hidden < hidden := Nat.mod_lt _ (by decide)
  have hfield : bits / hidden % 2048 < 2048 := Nat.mod_lt _ (by decide)
  generalize bits / hidden % 2048 = field at h hsign hfield
  generalize bits % hidden = fraction at h hsign hfraction
  by_cases hspecial : field = 2047
  · rw [if_pos hspecial] at h
    split at h <;> cases h
  rw [if_neg hspecial] at h
  by_cases hzero : field = 0
  · rw [if_pos hzero] at h
    obtain rfl := Reading.finite.inj h
    refine ⟨⟨Nat.lt_of_lt_of_le hfraction (by omega), Int.le_refl _, fun _ => rfl⟩, ?_, rfl⟩
    rw [Binary.bits, if_pos hfraction]
    rwa [hzero, Nat.zero_mul, Nat.zero_add] at hsign
  · rw [if_neg hzero] at h
    obtain rfl := Reading.finite.inj h
    have hle : ¬ hidden + fraction < hidden := by omega
    refine ⟨⟨by dsimp only; omega, by dsimp only; omega, fun hlt => absurd hlt hle⟩, ?_, rfl⟩
    have hexponent : ((field : Int) - 1075 + 1075).toNat = field := by omega
    rw [Binary.bits, if_neg hle, hexponent, Nat.add_sub_cancel_left]
    exact hsign

/-- Doubles that read alike are equal. -/
theorem Reading.ofFloat_inj (hx : Reading.ofFloat x = .finite b)
    (hy : Reading.ofFloat y = .finite b) : x = y := by
  have hbits : x.toBits = y.toBits := by
    rw [← UInt64.toNat_inj, (ofFloat_eq_finite hx).2.1, (ofFloat_eq_finite hy).2.1]
  obtain ⟨⟨bits, hvalid⟩⟩ := x
  obtain ⟨⟨bits', hvalid'⟩⟩ := y
  obtain rfl : bits = bits' := hbits
  rfl

end Lox.Decimal
