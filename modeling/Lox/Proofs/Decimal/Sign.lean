import Mathlib
import Lox.Proofs.Decimal.Binary

namespace Lox.Decimal

open Float.Model
open Float.Model.UnpackedFloat

/-- The sign, if there is one, is not negative. -/
def Unsigned : UnpackedFloat → Prop
  | .notANumber => True
  | .infinity sign | .zero sign => sign = .positive
  | .finite sign .. => sign = .positive

/-- The sign bit is not set. -/
def SignFree (x : Float) : Prop :=
  x.toBits.toNat < Nat.pow 2 63

variable {spec : Format} {a b : UnpackedFloat} {x y : Float}

/-- Rounding a positive number leaves it without a sign. -/
theorem unsigned_round (mantissa : Nat) (exponent : Int) (accuracy : Accuracy) :
    Unsigned (roundWithAccuracy spec .positive mantissa exponent accuracy) := by
  rw [roundWithAccuracy]
  dsimp only
  split <;> exact rfl

/-- A quotient of numbers without a sign has none. -/
theorem Unsigned.div (ha : Unsigned a) (hb : Unsigned b) :
    Unsigned (UnpackedFloat.div spec a b) := by
  cases a <;> cases b <;> cases ha <;> cases hb <;>
    first | exact trivial | exact rfl | exact unsigned_round _ _ _

theorem Unsigned.mul (ha : Unsigned a) (hb : Unsigned b) :
    Unsigned (UnpackedFloat.mul spec a b) := by
  cases a <;> cases b <;> cases ha <;> cases hb <;>
    first | exact trivial | exact rfl | exact unsigned_round _ _ _

theorem unsigned_ofNat (n : Nat) : Unsigned (UnpackedFloat.ofNat spec n) := by
  rw [UnpackedFloat.ofNat, UnpackedFloat.ofInt, UnpackedFloat.normalize]
  cases hcompare : compare (n : Int) 0 with
  | lt =>
    have hlt := compare_lt_iff_lt.mp hcompare
    omega
  | eq => exact rfl
  | gt => exact unsigned_round _ _ _

/-- Digits and an exponent stand for a number without a sign. -/
theorem unsigned_ofScientific (m : Nat) (e : Int) :
    Unsigned (UnpackedFloat.ofScientific spec m e) := by
  rw [UnpackedFloat.ofScientific]
  split_ifs
  · exact rfl
  · exact rfl
  · exact rfl
  · exact Unsigned.mul rfl rfl
  · exact Unsigned.div rfl rfl

/-- The packed bits of a positive number leave the highest bit free. -/
theorem toNat_packComponents_lt (exponent : BitVec Format.binary64.exponentBits)
    (mantissa : BitVec Format.binary64.mantissaBitsWithoutImplicit) :
    (packComponents Format.binary64 .positive exponent mantissa).toNat < Nat.pow 2 63 := by
  have hsign : (packComponents Format.binary64 .positive exponent mantissa).msb = false := by
    rw [packComponents, BitVec.msb_append, BitVec.msb_append]
    rfl
  have hlt := BitVec.msb_eq_false_iff_two_mul_lt.mp hsign
  change 2 * _ < 2 * Nat.pow 2 63 at hlt
  omega

/-- No sign is packed where there is none. -/
theorem signFree_pack (h : Unsigned a) : SignFree (.ofModel (.pack a)) := by
  change (UnpackedFloat.pack Format.binary64 a).toNat < Nat.pow 2 63
  cases a with
  | notANumber => exact toNat_packComponents_lt _ _
  | infinity sign =>
    obtain rfl := h
    exact toNat_packComponents_lt _ _
  | zero sign =>
    obtain rfl := h
    exact toNat_packComponents_lt _ _
  | finite sign m e hm =>
    obtain rfl := h
    rw [UnpackedFloat.pack]
    dsimp only
    split_ifs
    · exact toNat_packComponents_lt _ _
    · exact toNat_packComponents_lt _ _
    · exact toNat_packComponents_lt _ _

/-- Bits without the highest one unpack to a positive sign. -/
theorem unpackSign_eq_zero {bits : BitVec Format.binary64.numBits} (h : bits.toNat < Nat.pow 2 63) :
    unpackSign bits = 0#1 := by
  have hhigh : bits.toNat / 2 ^ (Format.binary64.mantissaBitsWithoutImplicit +
      Format.binary64.exponentBits) = 0 := Nat.div_eq_of_lt h
  apply BitVec.eq_of_toNat_eq
  rw [unpackSign, BitVec.toNat_cast, BitVec.extractLsb_toNat, Nat.shiftRight_eq_div_pow, hhigh]
  rfl

/-- No sign is unpacked where there is none. -/
theorem unsigned_unpack {bits : BitVec Format.binary64.numBits} (h : bits.toNat < Nat.pow 2 63) :
    Unsigned (UnpackedFloat.unpack Format.binary64 bits) := by
  have hsign : Sign.ofBitVec (unpackSign bits) = .positive := by
    rw [unpackSign_eq_zero h]
    rfl
  rw [UnpackedFloat.unpack]
  dsimp only
  rw [hsign]
  split_ifs
  · exact rfl
  · exact trivial
  · exact rfl
  · exact rfl
  · exact rfl

theorem SignFree.unsigned (h : SignFree x) : Unsigned x.toModel.unpack :=
  unsigned_unpack h

theorem SignFree.div (hx : SignFree x) (hy : SignFree y) : SignFree (x / y) :=
  signFree_pack (hx.unsigned.div hy.unsigned)

theorem signFree_ofBits {bits : UInt64} (h : bits.toNat < Nat.pow 2 63) :
    SignFree (Float.ofBits bits) :=
  signFree_pack (unsigned_unpack h)

/-- The powers of ten that are looked up have no sign. -/
theorem signFree_powerOfTen {e : Nat} (h : e < Float.exactlyRepresentablePowersOfTen.size) :
    SignFree Float.exactlyRepresentablePowersOfTen[e] := by
  have hall : ∀ x ∈ Float.exactlyRepresentablePowersOfTen.toList, SignFree x := by
    simp only [Float.exactlyRepresentablePowersOfTen, List.forall_mem_cons]
    and_intros <;> first | exact signFree_ofBits (by decide) | exact List.forall_mem_nil _
  exact hall _ (Array.getElem_mem_toList h)

/-- Digits are read without a sign. -/
theorem signFree_ofScientific (m e : Nat) : SignFree (Float.ofScientific m true e) := by
  rw [Float.ofScientific]
  split
  · exact (signFree_pack (unsigned_ofNat _)).div (signFree_powerOfTen _)
  · exact signFree_pack (unsigned_ofScientific m _)

/-- A number without a sign reads as not negative. -/
theorem SignFree.negative_eq_false {b : Binary} (h : SignFree x)
    (hx : Reading.ofFloat x = .finite b) : b.negative = false := by
  rw [(Reading.ofFloat_eq_finite hx).2.2, Nat.div_eq_of_lt h]
  rfl

end Lox.Decimal
