import Lox.Proofs.Text.Slice
import Lox.Text.Utf8

namespace Lox.Text.Utf8

variable {code taken following n low high : Nat} {test : UInt8 → Bool} {b : UInt8}
  {bytes : List UInt8}

theorem toNat_ofNat_of_lt (h : n < 256) : (UInt8.ofNat n).toNat = n := by
  rw [UInt8.toNat_ofNat']
  exact Nat.mod_eq_of_lt h

theorem le_ofNat_iff (hn : n < 256) : b ≤ UInt8.ofNat n ↔ b.toNat ≤ n := by
  rw [UInt8.le_iff_toNat_le, toNat_ofNat_of_lt hn]

theorem ofNat_le_iff (hn : n < 256) : UInt8.ofNat n ≤ b ↔ n ≤ b.toNat := by
  rw [UInt8.le_iff_toNat_le, toNat_ofNat_of_lt hn]

/-- The ranges of the bytes behind the first are ranges of their numbers. -/
theorem between_ofNat_iff {least greatest : Nat} (hleast : least < 256) (hgreatest : greatest < 256)
    (hn : n < 256) :
    (UInt8.ofNat least ≤ UInt8.ofNat n && UInt8.ofNat n ≤ UInt8.ofNat greatest) = true ↔
      least ≤ n ∧ n ≤ greatest := by
  rw [Bool.and_eq_true, decide_eq_true_eq, decide_eq_true_eq, ofNat_le_iff hleast,
    le_ofNat_iff hgreatest, toNat_ofNat_of_lt hn]

/-- One of the bytes behind the first adds six bits to the code. -/
theorem continued_cons (hlow : low < 64) (htest : test (UInt8.ofNat (low + 128)) = true) :
    continued code taken (following + 1) test (UInt8.ofNat (low + 128) :: bytes) =
      continued (code * 64 + low) (taken + 1) following isContinuation bytes := by
  have hbits : (UInt8.ofNat (low + 128)).toNat % 64 = low := by
    rw [toNat_ofNat_of_lt (by omega)]
    omega
  rw [continued, if_pos htest, hbits]

/-- A byte with six bits in it continues a character. -/
theorem isContinuation_of_lt (hlow : low < 64) :
    isContinuation (UInt8.ofNat (low + 128)) = true :=
  (@between_ofNat_iff _ 0x80 0xBF (by decide) (by decide) (by omega)).mpr (by omega)

/-- The bits that a leading byte carries are its lower ones. -/
theorem leadBits_ofNat (hn : n < 256) :
    leadBits (following + 1) (UInt8.ofNat n) = n % Nat.pow 2 (5 - following) := by
  rw [leadBits, toNat_ofNat_of_lt hn]

/-- What may follow a first byte, by the number of this byte. -/
theorem lead?_ofNat (hn : n < 256) : lead? (UInt8.ofNat n) =
    if n < 0x80 then some (0, fun _ => true)
    else if 0xC2 ≤ n ∧ n ≤ 0xDF then some (1, isContinuation)
    else if n = 0xE0 then some (2, fun c => 0xA0 ≤ c && c ≤ 0xBF)
    else if n = 0xED then some (2, fun c => 0x80 ≤ c && c ≤ 0x9F)
    else if 0xE1 ≤ n ∧ n ≤ 0xEF then some (2, isContinuation)
    else if n = 0xF0 then some (3, fun c => 0x90 ≤ c && c ≤ 0xBF)
    else if 0xF1 ≤ n ∧ n ≤ 0xF3 then some (3, isContinuation)
    else if n = 0xF4 then some (3, fun c => 0x80 ≤ c && c ≤ 0x8F)
    else none := by
  have hlt : UInt8.ofNat n < 0x80 ↔ n < 0x80 := by
    rw [UInt8.lt_iff_toNat_lt, toNat_ofNat_of_lt hn]
    rfl
  have heq {m : Nat} (hm : m < 256) : (UInt8.ofNat n == UInt8.ofNat m) = true ↔ n = m := by
    rw [beq_iff_eq, ← UInt8.toNat_inj, toNat_ofNat_of_lt hn, toNat_ofNat_of_lt hm]
  have hC2 : (0xC2 ≤ UInt8.ofNat n && UInt8.ofNat n ≤ 0xDF) = true ↔ 0xC2 ≤ n ∧ n ≤ 0xDF :=
    between_ofNat_iff (by decide) (by decide) hn
  have hE1 : (0xE1 ≤ UInt8.ofNat n && UInt8.ofNat n ≤ 0xEF) = true ↔ 0xE1 ≤ n ∧ n ≤ 0xEF :=
    between_ofNat_iff (by decide) (by decide) hn
  have hF1 : (0xF1 ≤ UInt8.ofNat n && UInt8.ofNat n ≤ 0xF3) = true ↔ 0xF1 ≤ n ∧ n ≤ 0xF3 :=
    between_ofNat_iff (by decide) (by decide) hn
  have hE0 : (UInt8.ofNat n == 0xE0) = true ↔ n = 0xE0 := heq (by decide)
  have hED : (UInt8.ofNat n == 0xED) = true ↔ n = 0xED := heq (by decide)
  have hF0 : (UInt8.ofNat n == 0xF0) = true ↔ n = 0xF0 := heq (by decide)
  have hF4 : (UInt8.ofNat n == 0xF4) = true ↔ n = 0xF4 := heq (by decide)
  simp only [lead?, hlt, hC2, hE0, hED, hE1, hF0, hF1, hF4]

/-- What follows the first byte of a character of three bytes, in its range. -/
theorem lead?_of_three {v : Nat} (hlow : 0x800 ≤ v) (hhigh : v ≤ 0xFFFF)
    (hvalid : v < 0xD800 ∨ 0xDFFF < v) :
    ∃ test, lead? (UInt8.ofNat (v / 4096 % 16 + 224)) = some (2, test) ∧
      test (UInt8.ofNat (v / 64 % 64 + 128)) = true := by
  rw [lead?_ofNat (by omega), if_neg (by omega), if_neg (by omega)]
  by_cases hfirst : v / 4096 = 0
  · exact ⟨_, if_pos (by omega),
      (@between_ofNat_iff _ 0xA0 0xBF (by decide) (by decide) (by omega)).mpr (by omega)⟩
  rw [if_neg (by omega)]
  by_cases hlast : v / 4096 = 13
  · exact ⟨_, if_pos (by omega),
      (@between_ofNat_iff _ 0x80 0x9F (by decide) (by decide) (by omega)).mpr (by omega)⟩
  · rw [if_neg (by omega), if_pos (by omega)]
    exact ⟨_, rfl, isContinuation_of_lt (by omega)⟩

/-- What follows the first byte of a character of four bytes, in its range. -/
theorem lead?_of_four {v : Nat} (hlow : 0x10000 ≤ v) (hhigh : v < 0x110000) :
    ∃ test, lead? (UInt8.ofNat (v / 262144 % 8 + 240)) = some (3, test) ∧
      test (UInt8.ofNat (v / 4096 % 64 + 128)) = true := by
  rw [lead?_ofNat (by omega), if_neg (by omega), if_neg (by omega), if_neg (by omega),
    if_neg (by omega), if_neg (by omega)]
  by_cases hfirst : v / 262144 = 0
  · exact ⟨_, if_pos (by omega),
      (@between_ofNat_iff _ 0x90 0xBF (by decide) (by decide) (by omega)).mpr (by omega)⟩
  rw [if_neg (by omega)]
  by_cases hlast : v / 262144 = 4
  · rw [if_neg (by omega)]
    exact ⟨_, if_pos (by omega),
      (@between_ofNat_iff _ 0x80 0x8F (by decide) (by decide) (by omega)).mpr (by omega)⟩
  · rw [if_pos (by omega)]
    exact ⟨_, rfl, isContinuation_of_lt (by omega)⟩

/-! ### Characters, by the number of their bytes -/

/-- A character of two bytes is decoded. -/
theorem nextCode_of_two {v : Nat} (hlow : 0x80 ≤ v) (hhigh : v ≤ 0x7FF) (bytes : List UInt8) :
    nextCode (UInt8.ofNat (v / 64 % 32 + 192)) (UInt8.ofNat (v % 64 + 128) :: bytes) =
      .ok (v, bytes) := by
  have hcode : (v / 64 % 32 + 192) % Nat.pow 2 (5 - 0) * 64 + v % 64 = v := by
    change (v / 64 % 32 + 192) % 32 * 64 + v % 64 = v
    omega
  rw [nextCode, lead?_ofNat (by omega), if_neg (by omega), if_pos (by omega)]
  dsimp only
  rw [leadBits_ofNat (by omega), continued_cons (by omega) (isContinuation_of_lt (by omega)),
    continued, hcode]

/-- A character of three bytes is decoded. -/
theorem nextCode_of_three {v : Nat} (hlow : 0x800 ≤ v) (hhigh : v ≤ 0xFFFF)
    (hvalid : v < 0xD800 ∨ 0xDFFF < v) (bytes : List UInt8) :
    nextCode (UInt8.ofNat (v / 4096 % 16 + 224))
        (UInt8.ofNat (v / 64 % 64 + 128) :: UInt8.ofNat (v % 64 + 128) :: bytes) =
      .ok (v, bytes) := by
  obtain ⟨test, hlead, htest⟩ := lead?_of_three hlow hhigh hvalid
  have hcode : ((v / 4096 % 16 + 224) % Nat.pow 2 (5 - 1) * 64 + v / 64 % 64) * 64 + v % 64 =
      v := by
    change ((v / 4096 % 16 + 224) % 16 * 64 + v / 64 % 64) * 64 + v % 64 = v
    omega
  rw [nextCode, hlead]
  dsimp only
  rw [leadBits_ofNat (by omega), continued_cons (by omega) htest,
    continued_cons (by omega) (isContinuation_of_lt (by omega)), continued, hcode]

/-- A character of four bytes is decoded. -/
theorem nextCode_of_four {v : Nat} (hlow : 0x10000 ≤ v) (hhigh : v < 0x110000)
    (bytes : List UInt8) :
    nextCode (UInt8.ofNat (v / 262144 % 8 + 240))
        (UInt8.ofNat (v / 4096 % 64 + 128) :: UInt8.ofNat (v / 64 % 64 + 128) ::
          UInt8.ofNat (v % 64 + 128) :: bytes) =
      .ok (v, bytes) := by
  obtain ⟨test, hlead, htest⟩ := lead?_of_four hlow hhigh
  have hcode : (((v / 262144 % 8 + 240) % Nat.pow 2 (5 - 2) * 64 + v / 4096 % 64) * 64 +
      v / 64 % 64) * 64 + v % 64 = v := by
    change (((v / 262144 % 8 + 240) % 8 * 64 + v / 4096 % 64) * 64 + v / 64 % 64) * 64 +
      v % 64 = v
    omega
  rw [nextCode, hlead]
  dsimp only
  rw [leadBits_ofNat (by omega), continued_cons (by omega) htest,
    continued_cons (by omega) (isContinuation_of_lt (by omega)),
    continued_cons (by omega) (isContinuation_of_lt (by omega)), continued, hcode]

/-- A character is read from the front of its bytes. -/
theorem nextCode_utf8EncodeChar (c : Char) (bytes : List UInt8) :
    ∃ b bs, String.utf8EncodeChar c = b :: bs ∧
      nextCode b (bs ++ bytes) = .ok (c.toNat, bytes) := by
  have hvalid : c.val.toNat < 0xD800 ∨ 0xDFFF < c.val.toNat ∧ c.val.toNat < 0x110000 := c.valid
  rw [Char.toNat, String.utf8EncodeChar]
  generalize c.val.toNat = v at hvalid
  by_cases h1 : v ≤ 127
  · refine ⟨_, _, if_pos h1, ?_⟩
    rw [nextCode, lead?_ofNat (by omega), if_pos (by omega)]
    simp only [leadBits, continued, List.nil_append, toNat_ofNat_of_lt (show v < 256 by omega)]
  rw [if_neg h1]
  by_cases h2 : v ≤ 2047
  · exact ⟨_, _, if_pos h2, nextCode_of_two (by omega) h2 bytes⟩
  rw [if_neg h2]
  by_cases h3 : v ≤ 65535
  · exact ⟨_, _, if_pos h3, nextCode_of_three (by omega) h3 (by omega) bytes⟩
  · rw [if_neg h3]
    exact ⟨_, _, rfl, nextCode_of_four (by omega) (by omega) bytes⟩

/-- Decoding goes through all characters, from whichever index it starts. -/
theorem decodeFrom_utf8 (cs : List Char) (index : Nat) {limit : Nat}
    (hlimit : (utf8 cs).length ≤ limit) : decodeFrom index limit (utf8 cs) = .ok cs := by
  induction cs generalizing index limit with
  | nil => cases limit <;> rfl
  | cons c cs ih =>
    obtain ⟨b, bs, hbytes, hcode⟩ := nextCode_utf8EncodeChar c (utf8 cs)
    rw [utf8_cons, hbytes] at hlimit ⊢
    rw [List.length_append, List.length_cons] at hlimit
    obtain ⟨limit, rfl⟩ : ∃ n, limit = n + 1 := ⟨limit - 1, by omega⟩
    have hrest : decodeFrom (index + (Char.ofNat c.toNat).utf8Size) limit (utf8 cs) = .ok cs :=
      ih _ (by omega)
    rw [List.cons_append, decodeFrom, hcode]
    simp only [hrest]
    rw [Char.ofNat_toNat]
    rfl

/-- The bytes of a text are decoded to this text. -/
theorem decode_utf8 (cs : List Char) : decode (utf8 cs) = .ok (String.ofList cs) := by
  rw [decode, decodeFrom_utf8 cs 0 (Nat.le_refl _)]
  rfl

end Lox.Text.Utf8
