import Lox.Proofs.Decimal.Sign
import Lox.Proofs.Syntax.Number
import Lox.Proofs.Token.Spacing

namespace Lox

open Decimal

variable {source : String} {t : Token} {value : Float} {x : Binary}

/-- What is read of a source is spelled as words of its kind are. -/
theorem Tokens.word_of_mem (ht : t ∈ (Tokens.ofString source).tokens) (hend : t.isEnd = false) :
    Word (some t.kind) t.lexeme.toList := by
  obtain ⟨ss, hss⟩ := Munched.exists_munched source.toList
  have hitems : readItems source = Stretch.items ⟨1, 0⟩ ss :=
    Reader.items_of_munched hss (Nat.lt_succ_self _)
  obtain ⟨item, hitem, hsome⟩ := List.mem_filterMap.mp ht
  rw [hitems] at hitem
  cases item with
  | error => cases hsome
  | ok u =>
    cases hsome
    exact hss.word_of_mem_items hitem hend

/-- A number that is read has no sign. -/
theorem Tokens.signFree_of_mem (ht : t ∈ (Tokens.ofString source).tokens)
    (hkind : t.kind = .number value) : SignFree value := by
  have hend : t.isEnd = false := by
    rw [Token.isEnd, hkind]
  have hword := word_of_mem ht hend
  rw [hkind] at hword
  generalize t.lexeme.toList = text at hword
  cases hword with
  | number => exact signFree_ofScientific _ _

/-- There is a point with a digit behind it. -/
def HasPlace (text : List Char) : Prop :=
  ∃ front c behind, text = front ++ '.' :: c :: behind ∧ c.isDigit

/-- Where there is a decimal place, there is a point. -/
theorem HasPlace.point_mem {text : List Char} (h : HasPlace text) : '.' ∈ text := by
  obtain ⟨front, c, behind, rfl, -⟩ := h
  exact List.mem_append_right _ List.mem_cons_self

/-- Digits on both sides of a point have a decimal place, with a sign or without. -/
theorem Decimal.Pointed.hasPlace {text : List Char} {q : ℚ} (h : Pointed text q)
    (negative : Bool) : HasPlace (signed negative text) := by
  obtain ⟨whole, fraction, rfl, -, hfraction, hdigits, -⟩ := h
  obtain ⟨c, cs, rfl⟩ := List.exists_cons_of_ne_nil hfraction
  have hc := hdigits c (List.mem_append_right _ List.mem_cons_self)
  cases negative with
  | false => exact ⟨whole, c, cs, rfl, hc⟩
  | true => exact ⟨'-' :: whole, c, cs, rfl, hc⟩

/-- A machine integer can hold the number, unless it has a fraction. -/
def Decimal.Binary.Holdable (x : Binary) : Prop :=
  ∀ n, x.whole? = some n → n < Nat.pow 2 63

/-- A number that is too great to be held is a multiple of four. -/
theorem Decimal.Binary.two_le_exponent (hx : x.Canonical) (h : ¬ x.Holdable) : 2 ≤ x.exponent := by
  by_contra hlt
  refine h fun n hn => ?_
  have hmantissa := hx.mantissa_lt
  rw [hidden_eq] at hmantissa
  change n < 9223372036854775808
  obtain ⟨k, hk | ⟨hk, hpos⟩⟩ := x.exponent_cases
  · rw [whole?_of_natCast hk] at hn
    have hpow : 2 ^ k ≤ 2 ^ 1 := Nat.pow_le_pow_right (by decide) (by omega)
    have hmul := Nat.mul_le_mul_left x.mantissa hpow
    have heq := Option.some.inj hn
    omega
  · rw [whole?_of_neg_natCast hk hpos] at hn
    split at hn
    · have hle := Nat.div_le_self x.mantissa (2 ^ k)
      have heq := Option.some.inj hn
      omega
    · cases hn

/-- A number without a sign is listed as in trees unless it is too great. -/
theorem chars_eq_of_holdable (h : Reading.ofFloat value = .finite x) (hsign : x.negative = false)
    (hholdable : x.Holdable) :
    Token.numberStyle.chars value = Literal.numberStyle.chars value := by
  cases hwhole : x.whole? with
  | none =>
    have hnone (n : Nat) : x.whole? ≠ some n := by
      rw [hwhole]
      exact Option.some_ne_none n ∘ Eq.symm
    rw [Style.chars_of_inexact h fun n hn => absurd hn (hnone n),
      Style.chars_of_inexact h fun n hn => absurd hn (hnone n)]
  | some n =>
    rw [Style.chars_of_exact h hwhole (decide_eq_true (hholdable n hwhole)),
      Style.chars_of_exact h hwhole rfl, hsign]
    rfl

/-- A whole number that is too great to be held is listed without a point. -/
theorem not_hasPlace_of_not_holdable (h : Reading.ofFloat value = .finite x)
    (hsign : x.negative = false) (hholdable : ¬ x.Holdable) :
    ¬ HasPlace (Token.numberStyle.chars value) := by
  intro hplace
  have hexponent := Binary.two_le_exponent (Reading.ofFloat_eq_finite h).1 hholdable
  rw [Binary.Holdable, not_forall] at hholdable
  obtain ⟨n, hn⟩ := hholdable
  rw [Classical.not_imp] at hn
  obtain ⟨hwhole, hle⟩ := hn
  have hinexact (m : Nat) (hm : x.whole? = some m) : Token.numberStyle.exact m = false := by
    rw [hwhole] at hm
    rw [← Option.some.inj hm]
    exact decide_eq_false hle
  rw [Style.chars_of_inexact h hinexact, hsign] at hplace
  exact Scientific.point_not_mem_positional (Binary.shortest_exponent_nonneg hexponent .up)
    hplace.point_mem

/-- The literal column of a listed number is the text of its tree, and has a decimal place, just if
    the number is not a whole one that no machine integer holds. Trees always have the place. -/
theorem payload_of_number (ht : t ∈ (Tokens.ofString source).tokens)
    (hkind : t.kind = .number value) (hfinite : Reading.ofFloat value = .finite x) :
    let tree : Expr Unit := .literal (.number value)
    HasPlace tree.text.toList ∧ (t.payload = tree.text ↔ x.Holdable) ∧
      (HasPlace t.payload.toList ↔ x.Holdable) := by
  intro tree
  have hsign := (Tokens.signFree_of_mem ht hkind).negative_eq_false hfinite
  have hpayload : t.payload = Token.numberStyle.write value := by
    rw [Token.payload, hkind]
  have htree : HasPlace tree.text.toList := by
    obtain ⟨text, q, htext, hpointed, -⟩ := Literal.exists_pointed hfinite
    have hchars : tree.text.toList = signed x.negative text :=
      String.toList_ofList.trans htext
    rw [hchars]
    exact hpointed.hasPlace _
  refine ⟨htree, ?_⟩
  by_cases hholdable : x.Holdable
  · have heq : t.payload = tree.text := by
      rw [hpayload, Style.write, chars_eq_of_holdable hfinite hsign hholdable]
      rfl
    exact ⟨iff_of_true heq hholdable, iff_of_true (heq ▸ htree) hholdable⟩
  · have hplace : ¬ HasPlace t.payload.toList := by
      rw [hpayload, Style.write, String.toList_ofList]
      exact not_hasPlace_of_not_holdable hfinite hsign hholdable
    exact ⟨iff_of_false (fun heq => hplace (heq ▸ htree)) hholdable, iff_of_false hplace hholdable⟩

/-- The least whole number that no machine integer holds is listed without a decimal place. -/
theorem payload_of_number_unholdable :
    ∃ t ∈ (Tokens.ofString "9223372036854775808").tokens, ∃ value x,
      t.kind = .number value ∧ Reading.ofFloat value = .finite x ∧
        t.payload ≠ (.literal (.number value) : Expr Unit).text ∧ ¬ HasPlace t.payload.toList := by
  have hread : (Tokens.ofString "9223372036854775808").tokens =
      [⟨.number (Lexeme.valueOf "9223372036854775808".toList []), "9223372036854775808", 1, 0⟩,
        .atEnd 1 19] := rfl
  have hfinite : Reading.ofFloat (Lexeme.valueOf "9223372036854775808".toList []) =
      .finite ⟨false, 4503599627370496, 11⟩ := by decide +kernel
  have hgreat : ¬ Binary.Holdable ⟨false, 4503599627370496, 11⟩ := fun hholdable =>
    absurd (hholdable 9223372036854775808 (by decide +kernel)) (by decide +kernel)
  have hmem := hread ▸ List.mem_cons_self
  obtain ⟨-, hsame, hplace⟩ := payload_of_number hmem rfl hfinite
  exact ⟨_, hmem, _, _, rfl, hfinite, mt hsame.mp hgreat, mt hplace.mp hgreat⟩

end Lox
