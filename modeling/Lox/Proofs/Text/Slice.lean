import Mathlib.Tactic
import Lox.Token.Reader

namespace Lox.Text

/-- The bytes of a text. -/
def utf8 (cs : List Char) : List UInt8 :=
  cs.flatMap String.utf8EncodeChar

@[simp]
theorem utf8_nil : utf8 [] = [] :=
  rfl

@[simp]
theorem utf8_cons (c : Char) (cs : List Char) :
    utf8 (c :: cs) = String.utf8EncodeChar c ++ utf8 cs :=
  rfl

/-- The bytes of two texts stand one behind the other. -/
theorem utf8_append (cs ds : List Char) : utf8 (cs ++ ds) = utf8 cs ++ utf8 ds :=
  List.flatMap_append

/-- A text has as many bytes as its characters take. -/
@[simp]
theorem length_utf8 (cs : List Char) : (utf8 cs).length = byteLength cs := by
  induction cs with
  | nil => rfl
  | cons c cs ih => simp [byteLength, ih, String.length_utf8EncodeChar]

/-- Different texts have different bytes. -/
theorem utf8_inj {cs ds : List Char} : utf8 cs = utf8 ds ↔ cs = ds := by
  refine ⟨fun h => ?_, congrArg utf8⟩
  have hbytes : (String.ofList cs).toByteArray = (String.ofList ds).toByteArray := by
    rw [String.toByteArray_ofList, String.toByteArray_ofList]
    exact congrArg List.toByteArray h
  exact String.ofList_injective (String.toByteArray_inj.mp hbytes)

/-- The parts of a text in front of byte `n` and behind, if a character ends there. -/
def splitAt? : Nat → List Char → Option (List Char × List Char)
  | 0, cs => some ([], cs)
  | _ + 1, [] => none
  | n + 1, c :: cs =>
    if c.utf8Size ≤ n + 1 then do
      let (front, behind) ← splitAt? (n + 1 - c.utf8Size) cs
      return (c :: front, behind)
    else none

/-- The part of a text from one byte to another, if both stand between characters. -/
def slice? (cs : List Char) (start stop : Nat) : Option (List Char) :=
  if start ≤ stop then do
    let (_, behind) ← splitAt? start cs
    let (front, _) ← splitAt? (stop - start) behind
    return front
  else none

/-- A text may be cut where one of its parts ends. -/
theorem splitAt?_append (cs ds : List Char) :
    splitAt? (byteLength cs) (cs ++ ds) = some (cs, ds) := by
  induction cs with
  | nil => cases ds <;> rfl
  | cons c cs ih =>
    obtain ⟨n, hn⟩ := Nat.exists_eq_add_of_lt (Char.utf8Size_pos c)
    have hsize : byteLength (c :: cs) = (n + byteLength cs) + 1 := by
      rw [byteLength]
      omega
    have hrest : n + byteLength cs + 1 - c.utf8Size = byteLength cs := by omega
    rw [hsize, List.cons_append, splitAt?, if_pos (by omega), hrest, ih]
    rfl

/-- What stands behind `before` in a text is its slice there. -/
theorem slice?_append (before cs behind : List Char) :
    slice? (before ++ (cs ++ behind)) (byteLength before) (byteLength before + byteLength cs) =
      some cs := by
  rw [slice?, if_pos (Nat.le_add_right _ _), splitAt?_append, Nat.add_sub_cancel_left]
  simp [splitAt?_append]

/-- A character that takes several bytes. -/
def Wide (c : Char) : Prop :=
  127 < c.val

instance (c : Char) : Decidable (Wide c) :=
  inferInstanceAs (Decidable (127 < c.val))

theorem wide_ne {c d : Char} (hc : Wide c) (hd : d.val ≤ 127) : c ≠ d := by
  rintro rfl
  exact UInt32.not_le.mpr hc hd

/-- A wide character is greater than every narrow one. -/
theorem not_le_of_wide {c d : Char} (hc : Wide c) (hd : d.val ≤ 127) : ¬ c ≤ d :=
  fun hle => UInt32.not_le.mpr hc (UInt32.le_trans (Char.le_def.mp hle) hd)

theorem val_ofUInt8 (b : UInt8) : (Char.ofUInt8 b).val = b.toUInt32 :=
  rfl

/-- A byte belongs to a wide character exactly where its first bit is set. -/
theorem wide_ofUInt8_iff {b : UInt8} : Wide (Char.ofUInt8 b) ↔ 127 < b.toNat := by
  rw [Wide, UInt32.lt_iff_toNat_lt, val_ofUInt8, UInt8.toNat_toUInt32]
  rfl

/-- A narrow character is one byte. -/
theorem utf8EncodeChar_of_not_wide {c : Char} (h : ¬ Wide c) :
    ∃ b, String.utf8EncodeChar c = [b] ∧ Char.ofUInt8 b = c := by
  have hascii : c.val ≤ 127 := UInt32.not_lt.mp h
  refine ⟨c.val.toUInt8, String.utf8EncodeChar_eq_singleton (Char.utf8Size_eq_one_iff.mpr hascii),
    Char.ext (UInt32.toNat_inj.mp ?_)⟩
  have hlt : c.val.toNat < 256 := Nat.lt_of_le_of_lt (UInt32.le_iff_toNat_le.mp hascii) (by decide)
  rw [val_ofUInt8, UInt8.toNat_toUInt32, UInt32.toNat_toUInt8, Nat.mod_eq_of_lt hlt]

/-- No byte of a wide character is taken for another character. -/
theorem wide_of_mem_utf8EncodeChar {c : Char} (h : Wide c) {b : UInt8}
    (hb : b ∈ String.utf8EncodeChar c) : Wide (Char.ofUInt8 b) := by
  rw [wide_ofUInt8_iff]
  have hval : ¬ c.val.toNat ≤ 127 := Nat.not_le.mpr (UInt32.lt_iff_toNat_lt.mp h)
  rw [String.utf8EncodeChar] at hb
  simp only [hval, if_false] at hb
  split at hb
  · simp at hb
    rcases hb with rfl | rfl <;> simp <;> omega
  · split at hb
    · simp at hb
      rcases hb with rfl | rfl | rfl <;> simp <;> omega
    · simp at hb
      rcases hb with rfl | rfl | rfl | rfl <;> simp <;> omega

/-- The first byte of a character is the character itself, or both are wide. -/
theorem exists_utf8EncodeChar_eq (c : Char) :
    ∃ b bs, String.utf8EncodeChar c = b :: bs ∧
      (Char.ofUInt8 b = c ∧ ¬ Wide c ∨ Wide (Char.ofUInt8 b) ∧ Wide c) := by
  by_cases hwide : Wide c
  · rcases hbytes : String.utf8EncodeChar c with _ | ⟨b, bs⟩
    · have hlength := String.length_utf8EncodeChar c
      have hpos := Char.utf8Size_pos c
      rw [hbytes, List.length_nil] at hlength
      omega
    · have hb := wide_of_mem_utf8EncodeChar hwide (hbytes ▸ List.mem_cons_self)
      exact ⟨b, bs, rfl, .inr ⟨hb, hwide⟩⟩
  · obtain ⟨b, hbytes, hb⟩ := utf8EncodeChar_of_not_wide hwide
    exact ⟨b, [], hbytes, .inl ⟨hb, hwide⟩⟩

/-- The test has one answer for all wide characters. -/
def Bytewise (test : Char → Bool) : Prop :=
  ∀ c d, Wide c → Wide d → test c = test d

/-- A test that has one answer for all wide characters may be made byte by byte. -/
theorem bytewise_of_wide {test : Char → Bool} (answer : Bool)
    (h : ∀ c, Wide c → test c = answer) : Bytewise test :=
  fun c d hc hd => (h c hc).trans (h d hd).symm

section Bytewise

variable {test : Char → Bool}

/-- All bytes of a character pass the test, or fail it, as the character does. -/
theorem Bytewise.of_mem (htest : Bytewise test) {c : Char} {b : UInt8}
    (hb : b ∈ String.utf8EncodeChar c) : test (Char.ofUInt8 b) = test c := by
  by_cases hwide : Wide c
  · exact htest _ _ (wide_of_mem_utf8EncodeChar hwide hb) hwide
  · obtain ⟨b', hbytes, hchar⟩ := utf8EncodeChar_of_not_wide hwide
    rw [hbytes, List.mem_singleton] at hb
    rw [hb, hchar]

/-- To take bytes by such a test is to take characters by it. -/
theorem takeWhile_utf8 (htest : Bytewise test) (cs : List Char) :
    (utf8 cs).takeWhile (fun b => test (Char.ofUInt8 b)) = utf8 (cs.takeWhile test) := by
  induction cs with
  | nil => rfl
  | cons c cs ih =>
    rw [utf8_cons]
    cases hc : test c with
    | true =>
      rw [List.takeWhile_append_of_pos fun b hb => by rw [htest.of_mem hb, hc], ih,
        List.takeWhile_cons_of_pos hc, utf8_cons]
    | false =>
      obtain ⟨b, bs, hbytes, -⟩ := exists_utf8EncodeChar_eq c
      have hb : test (Char.ofUInt8 b) = false :=
        (htest.of_mem (hbytes ▸ List.mem_cons_self)).trans hc
      simp [hbytes, hb, hc]

/-- Where no wide character passes, as many bytes pass as characters. -/
theorem countP_utf8 (htest : ∀ c, Wide c → test c = false) (cs : List Char) :
    (utf8 cs).countP (fun b => test (Char.ofUInt8 b)) = cs.countP test := by
  induction cs with
  | nil => rfl
  | cons c cs ih =>
    rw [utf8_cons, List.countP_append, ih, List.countP_cons, Nat.add_comm]
    congr 1
    by_cases hwide : Wide c
    · rw [htest c hwide, List.countP_eq_zero.mpr fun b hb => by
        rw [htest _ (wide_of_mem_utf8EncodeChar hwide hb)]; decide]
      rfl
    · obtain ⟨b, hbytes, hb⟩ := utf8EncodeChar_of_not_wide hwide
      rw [hbytes, List.countP_cons, List.countP_nil, hb, Nat.zero_add]

end Bytewise

end Lox.Text
