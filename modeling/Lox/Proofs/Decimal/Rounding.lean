import Mathlib.Tactic
import Lox.Proofs.Decimal.Binary

namespace Lox.Decimal.Binary

variable {x y : Binary} {q : ℚ}

/-- The size of a double. -/
def value (x : Binary) : ℚ :=
  x.mantissa * 2 ^ x.exponent

/-- The way down to the halfway point, in quarters of the unit. -/
def below (x : Binary) : Nat :=
  if x.mantissa = hidden ∧ -1074 < x.exponent then 1 else 2

/-- The halfway point to the next smaller double. -/
def low (x : Binary) : ℚ :=
  (4 * x.mantissa - x.below : Nat) * 2 ^ (x.exponent - 2)

/-- The halfway point to the next greater double. -/
def high (x : Binary) : ℚ :=
  (4 * x.mantissa + 2 : Nat) * 2 ^ (x.exponent - 2)

/-- The number rounds to the size of the double. Halfway points round to the even mantissa. -/
structure Rounds (x : Binary) (q : ℚ) : Prop where
  low_le : x.low ≤ q
  le_high : q ≤ x.high
  low_lt : x.mantissa % 2 = 1 → x.low < q
  lt_high : x.mantissa % 2 = 1 → q < x.high

/-- The gap below a double is half as wide where its mantissa is the least. -/
theorem below_cases (x : Binary) :
    x.below = 1 ∧ x.mantissa = hidden ∧ -1074 < x.exponent ∨
      x.below = 2 ∧ (x.mantissa = hidden → x.exponent ≤ -1074) := by
  rw [below]
  split
  · rename_i h
    exact .inl ⟨rfl, h⟩
  · rename_i h
    exact .inr ⟨rfl, fun hm => Int.not_lt.mp fun he => h ⟨hm, he⟩⟩

theorem two_zpow_pos (e : Int) : (0 : ℚ) < 2 ^ e :=
  zpow_pos (by norm_num) e

/-- The lower bound of a double in units of another with a smaller exponent. -/
theorem low_of_exponent {k : Nat} (h : y.exponent = x.exponent + k) :
    y.low = ((4 * y.mantissa - y.below) * 2 ^ k : Nat) * 2 ^ (x.exponent - 2) := by
  have hexponent : y.exponent - 2 = k + (x.exponent - 2) := by omega
  rw [low, hexponent, zpow_add₀ (by norm_num), zpow_natCast]
  push_cast
  ring

/-- Below a double with greater exponent, or greater mantissa, lies all that rounds to the other. -/
theorem high_le_low (hx : x.Canonical) (hy : y.Canonical)
    (hlt : x.exponent < y.exponent ∨ x.exponent = y.exponent ∧ x.mantissa < y.mantissa) :
    x.high < y.low ∨ x.high = y.low ∧ (x.mantissa % 2 = 1 ∨ y.mantissa % 2 = 1) := by
  obtain ⟨k, hk⟩ : ∃ k : Nat, y.exponent = x.exponent + k :=
    ⟨(y.exponent - x.exponent).toNat, by omega⟩
  have hunit := two_zpow_pos (x.exponent - 2)
  rw [low_of_exponent hk, high, mul_lt_mul_iff_left₀ hunit, mul_left_inj' hunit.ne',
    Nat.cast_lt, Nat.cast_inj]
  have hbelow := y.below_cases
  obtain hk0 | hk0 := Nat.eq_zero_or_pos k
  · rw [hk0, Nat.pow_zero, Nat.mul_one]
    omega
  · -- The greater exponent is not the smallest, so the mantissa has all its digits.
    have hle := hx.le_exponent
    have hfull : hidden ≤ y.mantissa := by
      by_contra hlt
      have hleast := hy.eq_of_lt (Nat.not_le.mp hlt)
      omega
    have hpow : 2 ≤ 2 ^ k := Nat.le_self_pow hk0.ne' 2
    have hmul := Nat.mul_le_mul_left (4 * y.mantissa - y.below) hpow
    have hmantissa := hx.mantissa_lt
    have hhidden := hidden_eq
    omega

/-- A number rounds to one size only. -/
theorem Rounds.unique (hx : x.Canonical) (hy : y.Canonical) (h : x.Rounds q) (h' : y.Rounds q) :
    x.mantissa = y.mantissa ∧ x.exponent = y.exponent := by
  have hapart {x y : Binary} (hx : x.Canonical) (hy : y.Canonical) (h : x.Rounds q)
      (h' : y.Rounds q) :
      ¬ (x.exponent < y.exponent ∨ x.exponent = y.exponent ∧ x.mantissa < y.mantissa) := by
    intro hlt
    have hle := h'.low_le.trans h.le_high
    obtain hends | ⟨hends, hodd | hodd⟩ := high_le_low hx hy hlt
    · exact absurd hle hends.not_ge
    · exact absurd (h'.low_le.trans_lt (h.lt_high hodd)) hends.not_gt
    · exact absurd ((h'.low_lt hodd).trans_le h.le_high) hends.not_gt
  have hxy := hapart hx hy h h'
  have hyx := hapart hy hx h' h
  omega

/-- A double without a negative exponent is whole. -/
theorem whole?_of_natCast {k : Nat} (h : x.exponent = k) :
    x.whole? = some (x.mantissa * 2 ^ k) := by
  rw [whole?, if_pos (h ▸ Int.natCast_nonneg k), h, Int.toNat_natCast, Nat.pow_eq]

/-- A double with a negative exponent is whole where its mantissa is divisible. -/
theorem whole?_of_neg_natCast {k : Nat} (h : x.exponent = -k) (hpos : 0 < k) :
    x.whole? = if x.mantissa % 2 ^ k = 0 then some (x.mantissa / 2 ^ k) else none := by
  rw [whole?, if_neg (by omega), h, neg_neg, Int.toNat_natCast, Nat.pow_eq]

theorem exponent_cases (x : Binary) :
    ∃ k : Nat, x.exponent = k ∨ x.exponent = -k ∧ 0 < k :=
  ⟨x.exponent.natAbs, by omega⟩

/-- The whole number of a double is its value. -/
theorem value_of_whole? {n : Nat} (h : x.whole? = some n) : x.value = n := by
  obtain ⟨k, hk | ⟨hk, hpos⟩⟩ := x.exponent_cases
  · rw [whole?_of_natCast hk] at h
    rw [value, hk, zpow_natCast, ← Option.some.inj h]
    push_cast
    rfl
  · rw [whole?_of_neg_natCast hk hpos] at h
    split at h
    · rename_i hmod
      have hunit : (2 : ℚ) ^ k ≠ 0 := by positivity
      rw [value, hk, zpow_neg, zpow_natCast, ← Option.some.inj h,
        Nat.cast_div (Nat.dvd_of_mod_eq_zero hmod) (by exact_mod_cast hunit), Nat.cast_pow,
        div_eq_mul_inv]
      rfl
    · cases h

theorem value_eq_quarters (x : Binary) :
    x.value = (4 * x.mantissa : Nat) * 2 ^ (x.exponent - 2) := by
  rw [value, zpow_sub₀ (by norm_num)]
  push_cast
  ring

/-- Every double rounds to itself. -/
theorem rounds_value (x : Binary) : x.Rounds x.value := by
  have hunit := two_zpow_pos (x.exponent - 2)
  have hbelow := x.below_cases
  rw [value_eq_quarters]
  refine ⟨?_, ?_, fun hodd => ?_, fun _ => ?_⟩
  · rw [low, mul_le_mul_iff_left₀ hunit, Nat.cast_le]
    omega
  · rw [high, mul_le_mul_iff_left₀ hunit, Nat.cast_le]
    omega
  · rw [low, mul_lt_mul_iff_left₀ hunit, Nat.cast_lt]
    omega
  · rw [high, mul_lt_mul_iff_left₀ hunit, Nat.cast_lt]
    omega

/-- No whole number rounds to a double with a fraction. -/
theorem Rounds.ne_natCast (h : x.Rounds q) (hwhole : x.whole? = none) (n : Nat) : q ≠ n := by
  rintro rfl
  obtain ⟨k, hk | ⟨hk, hpos⟩⟩ := x.exponent_cases
  · rw [whole?_of_natCast hk] at hwhole
    cases hwhole
  · have hunit := two_zpow_pos (x.exponent - 2)
    have hquarters : (n : ℚ) = (4 * (n * 2 ^ k) : Nat) * 2 ^ (x.exponent - 2) := by
      rw [zpow_sub₀ (by norm_num), hk, zpow_neg, zpow_natCast]
      push_cast
      field_simp
    have hlow := h.low_le
    have hhigh := h.le_high
    rw [low, hquarters, mul_le_mul_iff_left₀ hunit, Nat.cast_le] at hlow
    rw [high, hquarters, mul_le_mul_iff_left₀ hunit, Nat.cast_le] at hhigh
    have hmantissa : x.mantissa = n * 2 ^ k := by
      have hbelow := x.below_cases
      omega
    rw [whole?_of_neg_natCast hk hpos, hmantissa, Nat.mul_mod_left, if_pos rfl] at hwhole
    cases hwhole

end Lox.Decimal.Binary
