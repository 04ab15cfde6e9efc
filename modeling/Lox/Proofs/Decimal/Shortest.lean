import Lox.Decimal.Shortest
import Lox.Proofs.Decimal.Rounding

namespace Lox.Decimal

variable {n : Neighbourhood} {tie : Tie} {grid point steps : Nat} {x : Binary}

def Scientific.value (s : Scientific) : ℚ :=
  s.coefficient * 10 ^ s.exponent

theorem Scientific.exists_value_eq {s : Scientific} (h : 0 ≤ s.exponent) :
    ∃ n : Nat, s.value = n := by
  obtain ⟨k, hk⟩ := Int.eq_ofNat_of_zero_le h
  refine ⟨s.coefficient * 10 ^ k, ?_⟩
  rw [value, hk, zpow_natCast]
  push_cast
  rfl

namespace Neighbourhood

/-- A closed neighbourhood has its bounds in it. -/
theorem contains_of_closed (h : n.closed = true) :
    n.contains point = true ↔ n.low ≤ point ∧ point ≤ n.high := by
  rw [contains, if_pos h, Bool.and_eq_true, decide_eq_true_eq, decide_eq_true_eq]

/-- An open neighbourhood has no bound in it. -/
theorem contains_of_open (h : ¬ n.closed = true) :
    n.contains point = true ↔ n.low < point ∧ point < n.high := by
  rw [contains, if_neg h, Bool.and_eq_true, decide_eq_true_eq, decide_eq_true_eq]

/-- The nearest point that is found lies in the neighbourhood. -/
theorem contains_of_nearest? (h : n.nearest? tie grid = some steps) :
    n.contains (steps * grid) = true := by
  rw [nearest?.eq_def] at h
  dsimp only at h
  generalize n.middle / grid = steps' at h
  have habove : steps' * grid + grid = (steps' + 1) * grid := (Nat.succ_mul _ _).symm
  rw [habove] at h
  split at h
  · rename_i hbelow
    split at h
    · rename_i habove
      split at h
      · exact Option.some.inj h ▸ hbelow
      split at h
      · exact Option.some.inj h ▸ habove
      cases tie with
      | up => exact Option.some.inj h ▸ habove
      | even =>
        obtain hparity | hparity := Nat.mod_two_eq_zero_or_one steps'
        · rw [hparity] at h
          exact Option.some.inj h ▸ hbelow
        · rw [hparity] at h
          exact Option.some.inj h ▸ habove
    · exact Option.some.inj h ▸ hbelow
  · split at h
    · rename_i habove
      exact Option.some.inj h ▸ habove
    · cases h

/-- What the search finds is a point of the neighbourhood. -/
theorem exists_point (h : n.contains n.middle = true) (tie : Tie) (places : Nat) :
    -n.scale ≤ (n.shortestFrom tie places).exponent ∧ ∃ point, n.contains point = true ∧
      (n.shortestFrom tie places).value = point * 10 ^ (-n.scale : Int) := by
  induction places with
  | zero => exact ⟨Int.le_refl _, n.middle, h, rfl⟩
  | succ places ih =>
    rw [shortestFrom]
    cases hnearest : n.nearest? tie (Nat.pow 10 (places + 1)) with
    | none => exact ih
    | some steps =>
      refine ⟨?_, _, contains_of_nearest? hnearest, ?_⟩
      · dsimp only
        omega
      · rw [Scientific.value, sub_eq_add_neg, zpow_add₀ (by norm_num), zpow_natCast, Nat.pow_eq,
          ← mul_assoc]
        push_cast
        rfl

end Neighbourhood

namespace Binary

theorem unit_mul_zpow (q : Int) :
    ((Nat.pow 2 q.toNat * Nat.pow 5 (-q).toNat : Nat) : ℚ) * 10 ^ (-(-q).toNat : Int) = 2 ^ q := by
  rw [Nat.pow_eq, Nat.pow_eq]
  obtain ⟨k, rfl | rfl⟩ := q.eq_nat_or_neg
  · have hscale : (-(k : Int)).toNat = 0 := by omega
    rw [hscale, Int.toNat_natCast]
    simp
  · have hfive : (10 : ℚ) = 2 * 5 := by norm_num
    have hquarter : (-(k : Int)).toNat = 0 := by omega
    rw [hquarter, neg_neg, Int.toNat_natCast, zpow_neg, zpow_neg, zpow_natCast, zpow_natCast, hfive,
      mul_pow]
    push_cast
    field_simp

theorem mul_unit_mul_zpow (k : Nat) (x : Binary) :
    ((k * (Nat.pow 2 (x.exponent - 2).toNat * Nat.pow 5 (-(x.exponent - 2)).toNat) : Nat) : ℚ) *
      10 ^ (-x.neighbourhood.scale : Int) = k * 2 ^ (x.exponent - 2) := by
  rw [Nat.cast_mul, mul_assoc, ← unit_mul_zpow]
  rfl

/-- The neighbourhood of a double is closed just where its mantissa is even. -/
theorem closed_iff (x : Binary) : x.neighbourhood.closed = true ↔ x.mantissa % 2 = 0 :=
  beq_iff_eq

/-- The points of the neighbourhood round to the double. -/
theorem rounds_of_contains (h : x.neighbourhood.contains point = true) :
    x.Rounds (point * 10 ^ (-x.neighbourhood.scale : Int)) := by
  have hscale : (0 : ℚ) < 10 ^ (-x.neighbourhood.scale : Int) := zpow_pos (by norm_num) _
  have hlow : x.low = x.neighbourhood.low * 10 ^ (-x.neighbourhood.scale : Int) :=
    (mul_unit_mul_zpow _ x).symm
  have hhigh : x.high = x.neighbourhood.high * 10 ^ (-x.neighbourhood.scale : Int) :=
    (mul_unit_mul_zpow _ x).symm
  by_cases hclosed : x.neighbourhood.closed = true
  · rw [Neighbourhood.contains_of_closed hclosed] at h
    have heven (hodd : x.mantissa % 2 = 1) : False := by
      rw [closed_iff] at hclosed
      omega
    refine ⟨?_, ?_, fun hodd => (heven hodd).elim, fun hodd => (heven hodd).elim⟩
    · rw [hlow, mul_le_mul_iff_left₀ hscale, Nat.cast_le]
      exact h.1
    · rw [hhigh, mul_le_mul_iff_left₀ hscale, Nat.cast_le]
      exact h.2
  · rw [Neighbourhood.contains_of_open hclosed] at h
    have hlt : x.low < point * 10 ^ (-x.neighbourhood.scale : Int) := by
      rw [hlow, mul_lt_mul_iff_left₀ hscale, Nat.cast_lt]
      exact h.1
    have hgt : point * 10 ^ (-x.neighbourhood.scale : Int) < x.high := by
      rw [hhigh, mul_lt_mul_iff_left₀ hscale, Nat.cast_lt]
      exact h.2
    exact ⟨hlt.le, hgt.le, fun _ => hlt, fun _ => hgt⟩

/-- A neighbourhood contains its middle, so the search ends. -/
theorem contains_middle (x : Binary) : x.neighbourhood.contains x.neighbourhood.middle = true := by
  have hunit : 0 < Nat.pow 2 (x.exponent - 2).toNat * Nat.pow 5 (-(x.exponent - 2)).toNat := by
    rw [Nat.pow_eq, Nat.pow_eq]
    positivity
  have hbelow := x.below_cases
  have hlow : x.neighbourhood.low = (4 * x.mantissa - x.below) * _ := rfl
  have hhigh : x.neighbourhood.high = (4 * x.mantissa + 2) * _ := rfl
  have hmiddle : x.neighbourhood.middle = 4 * x.mantissa * _ := rfl
  by_cases hclosed : x.neighbourhood.closed = true
  · rw [Neighbourhood.contains_of_closed hclosed, hlow, hhigh, hmiddle]
    exact ⟨Nat.mul_le_mul_right _ (by omega), Nat.mul_le_mul_right _ (by omega)⟩
  · rw [Neighbourhood.contains_of_open hclosed, hlow, hhigh, hmiddle]
    rw [closed_iff] at hclosed
    exact ⟨Nat.mul_lt_mul_of_pos_right (by omega) hunit,
      Nat.mul_lt_mul_of_pos_right (by omega) hunit⟩

/-- The shortest digits read back as the double. -/
theorem rounds_shortest (x : Binary) (tie : Tie) : x.Rounds (x.shortest tie).value := by
  obtain ⟨-, point, hpoint, hvalue⟩ := Neighbourhood.exists_point x.contains_middle tie
    (Nat.toDigits 10 x.neighbourhood.middle).length
  rw [shortest, hvalue]
  exact rounds_of_contains hpoint

/-- A double with a fraction has digits behind the point. -/
theorem shortest_exponent_neg (h : x.whole? = none) (tie : Tie) :
    (x.shortest tie).exponent < 0 := by
  by_contra hexponent
  obtain ⟨n, hn⟩ := Scientific.exists_value_eq (Int.not_lt.mp hexponent)
  exact (x.rounds_shortest tie).ne_natCast h n hn

/-- A great double has none. -/
theorem shortest_exponent_nonneg (h : 2 ≤ x.exponent) (tie : Tie) :
    0 ≤ (x.shortest tie).exponent := by
  obtain ⟨hle, -⟩ := Neighbourhood.exists_point x.contains_middle tie
    (Nat.toDigits 10 x.neighbourhood.middle).length
  have hscale : x.neighbourhood.scale = 0 := by
    change (-(x.exponent - 2)).toNat = 0
    omega
  rw [hscale] at hle
  exact hle

end Binary

end Lox.Decimal
