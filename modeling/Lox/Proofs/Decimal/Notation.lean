import Lox.Decimal.Notation
import Lox.Proofs.Decimal.Shortest

/-!
What is written of a number. Text with digits on both sides of a point stands for one number only;
what is written of a double with a fraction is such text, and rounds to the double.
-/

namespace Lox.Decimal

variable {text text' : List Char} {s : Scientific} {p q : ℚ} {c : Char} {x : Binary} {value : Float}

/-- Digits, a point and more digits, that stand for this number. -/
def Pointed (text : List Char) (q : ℚ) : Prop :=
  ∃ whole fraction : List Char, text = whole ++ '.' :: fraction ∧ whole ≠ [] ∧ fraction ≠ [] ∧
    (∀ c ∈ whole ++ fraction, c.isDigit) ∧
    q = (Nat.ofDigitChars 10 (whole ++ fraction) 0 : Nat) / 10 ^ fraction.length

theorem ne_point_of_isDigit (h : c.isDigit) : c ≠ '.' := by
  rintro rfl
  exact absurd h (by decide)

theorem isDigit_of_mem_digits {n : Nat} (h : c ∈ digits n) : c.isDigit :=
  Nat.isDigit_of_mem_toDigits (by decide) (by decide) h

/-- Every whole number has a digit. -/
theorem digits_ne_nil (n : Nat) : digits n ≠ [] :=
  Nat.toDigits_ne_nil

theorem isDigit_of_mem_zeros {n : Nat} (h : c ∈ List.replicate n '0') : c.isDigit := by
  rw [List.eq_of_mem_replicate h]
  decide

/-- The text tells the number. -/
theorem Pointed.unique (h : Pointed text p) (h' : Pointed text q) : p = q := by
  obtain ⟨whole, fraction, rfl, -, -, hdigits, rfl⟩ := h
  obtain ⟨whole', fraction', htext, -, -, -, rfl⟩ := h'
  have hpoint : '.' ∉ whole ++ fraction := fun hmem => ne_point_of_isDigit (hdigits _ hmem) rfl
  rw [List.mem_append, not_or] at hpoint
  rw [List.append_cons_inj_of_notMem hpoint.1 hpoint.2] at htext
  rw [htext.1, htext.2.2]

/-- Text with a point has nothing in it but digits and the point. -/
theorem Pointed.isDigit_or_eq (h : Pointed text q) (hc : c ∈ text) : c.isDigit ∨ c = '.' := by
  obtain ⟨whole, fraction, rfl, -, -, hdigits, -⟩ := h
  obtain hc | hc := List.mem_append.mp hc
  · exact .inl (hdigits c (List.mem_append_left _ hc))
  · obtain rfl | hc := List.mem_cons.mp hc
    · exact .inr rfl
    · exact .inl (hdigits c (List.mem_append_right _ hc))

/-- A whole number with a zero behind the point stands for itself. -/
theorem pointed_digits (n : Nat) : Pointed (digits n ++ ['.', '0']) n := by
  refine ⟨digits n, ['0'], rfl, digits_ne_nil n, by decide, fun c hc => ?_, ?_⟩
  · rw [List.mem_append, List.mem_singleton] at hc
    obtain hc | rfl := hc
    · exact isDigit_of_mem_digits hc
    · decide
  · rw [Nat.ofDigitChars_append, digits, Nat.ofDigitChars_ten_toDigits]
    simp [Nat.ofDigitChars_cons]

/-- The digits behind the point, as many as the exponent says. -/
theorem Scientific.value_of_places {places : Nat} (h : s.exponent = -places) :
    s.value = s.coefficient / 10 ^ places := by
  rw [value, h, zpow_neg, zpow_natCast, div_eq_mul_inv]

/-- Digits behind the point are written as such. -/
theorem Scientific.pointed_positional (h : s.exponent < 0) : Pointed s.positional s.value := by
  obtain ⟨places, hplaces⟩ : ∃ places : Nat, s.exponent = -places :=
    ⟨(-s.exponent).toNat, by omega⟩
  have hpos : 0 < places := by omega
  have hlength : (-s.exponent).toNat = places := by omega
  have hvalue : Nat.ofDigitChars 10 (digits s.coefficient) 0 = s.coefficient :=
    Nat.ofDigitChars_ten_toDigits
  rw [positional, if_neg (Int.not_le.mpr h), hlength, value_of_places hplaces]
  have hdigits {c : Char} (hc : c ∈ digits s.coefficient) : c.isDigit :=
    isDigit_of_mem_digits hc
  generalize digits s.coefficient = ds at hvalue hdigits
  dsimp only
  by_cases hlt : places < ds.length
  · have hfraction : (ds.drop (ds.length - places)).length = places := by
      rw [List.length_drop]
      omega
    have hwhole : (ds.take (ds.length - places)).length = ds.length - places := by
      rw [List.length_take]
      omega
    rw [if_pos hlt]
    refine ⟨_, _, rfl, List.ne_nil_of_length_pos (by omega), List.ne_nil_of_length_pos (by omega),
      ?_, ?_⟩
    · rw [List.take_append_drop]
      exact fun c => hdigits
    · rw [List.take_append_drop, hvalue, hfraction]
  · have hfraction : (List.replicate (places - ds.length) '0' ++ ds).length = places := by
      rw [List.length_append, List.length_replicate]
      omega
    rw [if_neg hlt]
    refine ⟨['0'], List.replicate (places - ds.length) '0' ++ ds, rfl, by decide,
      List.ne_nil_of_length_pos (by omega), fun c hc => ?_, ?_⟩
    · rw [List.mem_append, List.mem_append, List.mem_singleton] at hc
      obtain rfl | hc | hc := hc
      · decide
      · exact isDigit_of_mem_zeros hc
      · exact hdigits hc
    · rw [Nat.ofDigitChars_append, Nat.ofDigitChars_append, Nat.ofDigitChars_replicate_zero,
        hfraction]
      have hzero : Nat.ofDigitChars 10 ['0'] 0 = 0 := by decide
      rw [hzero, Nat.mul_zero, hvalue]

/-- Without a fraction, no point is written. -/
theorem Scientific.point_not_mem_positional (h : 0 ≤ s.exponent) : '.' ∉ s.positional := by
  rw [positional, if_pos h]
  intro hmem
  rw [List.mem_append] at hmem
  obtain hmem | hmem := hmem
  · exact ne_point_of_isDigit (isDigit_of_mem_digits hmem) rfl
  · exact ne_point_of_isDigit (isDigit_of_mem_zeros hmem) rfl

/-! ### Signs -/

theorem Pointed.exists_cons (h : Pointed text p) : ∃ c cs, text = c :: cs ∧ c.isDigit := by
  obtain ⟨whole, fraction, rfl, hwhole, -, hdigits, -⟩ := h
  obtain ⟨c, cs, rfl⟩ := List.exists_cons_of_ne_nil hwhole
  exact ⟨c, _, rfl, hdigits c (List.mem_append_left _ List.mem_cons_self)⟩

/-- Text with a point begins with no sign. -/
theorem Pointed.ne_minus_cons (h : Pointed text p) (cs : List Char) : text ≠ '-' :: cs := by
  obtain ⟨c, ds, rfl, hc⟩ := h.exists_cons
  intro heq
  rw [(List.cons.inj heq).1] at hc
  exact absurd hc (by decide)

/-- A sign in front does not hide the text. -/
theorem signed_inj {negative negative' : Bool} (h : Pointed text p) (h' : Pointed text' q)
    (heq : signed negative text = signed negative' text') :
    negative = negative' ∧ text = text' := by
  cases negative <;> cases negative'
  · exact ⟨rfl, heq⟩
  · exact absurd heq (h.ne_minus_cons _)
  · exact absurd heq.symm (h'.ne_minus_cons _)
  · exact ⟨rfl, (List.cons.inj heq).2⟩

/-! ### Styles -/

/-- A whole number that the style holds exact is written with all its digits. -/
theorem Style.chars_of_exact {style : Style} {n : Nat} (h : Reading.ofFloat value = .finite x)
    (hwhole : x.whole? = some n) (hexact : style.exact n = true) :
    style.chars value =
      signed (x.negative && (n != 0 || style.signedZero)) (digits n ++ style.suffix) := by
  have hfilter : x.whole?.filter style.exact = some n := by
    rw [hwhole, Option.filter_some, if_pos hexact]
  rw [chars, h]
  dsimp only
  rw [hfilter]

/-- Every other finite number is written with its shortest digits. -/
theorem Style.chars_of_inexact {style : Style} (h : Reading.ofFloat value = .finite x)
    (hinexact : ∀ n, x.whole? = some n → style.exact n = false) :
    style.chars value = signed x.negative (x.shortest .up).positional := by
  have hfilter : x.whole?.filter style.exact = none := by
    rw [Option.filter_eq_none_iff]
    exact fun n hn hexact => Bool.false_ne_true ((hinexact n hn).symm.trans hexact)
  rw [chars, h]
  dsimp only
  rw [hfilter]

end Lox.Decimal
