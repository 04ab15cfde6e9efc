/-!
UTF-8. `decode` turns bytes into text or tells where and how they stop being UTF-8: at a sequence
that no continuation could make valid, or at the end of the bytes inside a sequence that could have
been continued.
-/

namespace Lox.Text.Utf8

/-- The first `validUpTo` bytes are text. The next `length` bytes, one to three, are not; without a
    length, the bytes end inside a character. -/
structure Malformed where
  validUpTo : Nat
  length : Option Nat
deriving DecidableEq

def Malformed.message (m : Malformed) : String :=
  match m.length with
  | some length =>
    "invalid utf-8 sequence of " ++ toString length ++ " bytes from index " ++ toString m.validUpTo
  | none => "incomplete utf-8 byte sequence from index " ++ toString m.validUpTo

def isContinuation (b : UInt8) : Bool :=
  0x80 ≤ b && b ≤ 0xBF

/-- How many bytes follow the first byte of a character, and which the second byte may be. The
    narrower ranges leave out overlong forms, surrogates and what lies beyond the last code. -/
def lead? (b : UInt8) : Option (Nat × (UInt8 → Bool)) :=
  if b < 0x80 then some (0, fun _ => true)
  else if 0xC2 ≤ b && b ≤ 0xDF then some (1, isContinuation)
  else if b == 0xE0 then some (2, fun c => 0xA0 ≤ c && c ≤ 0xBF)
  else if b == 0xED then some (2, fun c => 0x80 ≤ c && c ≤ 0x9F)
  else if 0xE1 ≤ b && b ≤ 0xEF then some (2, isContinuation)
  else if b == 0xF0 then some (3, fun c => 0x90 ≤ c && c ≤ 0xBF)
  else if 0xF1 ≤ b && b ≤ 0xF3 then some (3, isContinuation)
  else if b == 0xF4 then some (3, fun c => 0x80 ≤ c && c ≤ 0x8F)
  else none

/-- The payload bits of a first byte that `following` bytes follow. -/
def leadBits (following : Nat) (b : UInt8) : Nat :=
  match following with
  | 0 => b.toNat
  | n + 1 => b.toNat % Nat.pow 2 (5 - n)

/-- One character from the front: its code and the bytes behind it, or the length of the sequence
    that is malformed. `taken` bytes of the character are read, `following` are to come, and the
    next of them has to pass `test`. -/
def continued (code taken : Nat) :
    Nat → (UInt8 → Bool) → List UInt8 → Except (Option Nat) (Nat × List UInt8)
  | 0, _, bytes => .ok (code, bytes)
  | _ + 1, _, [] => .error none
  | following + 1, test, b :: bytes =>
    if test b then continued (code * 64 + b.toNat % 64) (taken + 1) following isContinuation bytes
    else .error (some taken)

def nextCode (b : UInt8) (bytes : List UInt8) : Except (Option Nat) (Nat × List UInt8) :=
  match lead? b with
  | none => .error (some 1)
  | some (following, test) => continued (leadBits following b) 1 following test bytes

/-- Decodes at most `limit` characters, the first of which starts at byte `index`. -/
def decodeFrom (index : Nat) : Nat → List UInt8 → Except Malformed (List Char)
  | 0, _ => .ok []
  | _ + 1, [] => .ok []
  | limit + 1, b :: bytes =>
    match nextCode b bytes with
    | .error length => .error ⟨index, length⟩
    | .ok (code, rest) => do
      let c := Char.ofNat code
      return c :: (← decodeFrom (index + c.utf8Size) limit rest)

def decode (bytes : List UInt8) : Except Malformed String :=
  String.ofList <$> decodeFrom 0 bytes.length bytes

end Lox.Text.Utf8
