import Mathlib.Tactic
import Lox.Operation

namespace Lox

theorem Value.ne_function {value : Value} (h : value.callable? = none) (f : Closure) :
    value ≠ .function f := by
  rintro rfl
  cases h

namespace Operation

variable {kind : Kind} {x y value : Value}

/-- A sign or a negation makes no function. -/
theorem callable?_unary (h : unary kind x = .ok value) : value.callable? = none := by
  unfold unary at h
  split at h
  · split at h
    · cases h
      rfl
    · cases h
  · cases h
    rfl
  · cases h

/-- Arithmetic and comparisons make no function. -/
theorem callable?_numbers {result : Float → Float → Value}
    (hresult : ∀ a b, (result a b).callable? = none) (h : numbers x y result = .ok value) :
    value.callable? = none := by
  unfold numbers at h
  split at h
  · rw [← Except.ok.inj h]
    exact hresult _ _
  · cases h

/-- A sum is a number or a string. -/
theorem callable?_add (h : add x y = .ok value) : value.callable? = none := by
  unfold add at h
  split at h <;> cases h <;> rfl

theorem callable?_binary (h : binary kind x y = .ok value) : value.callable? = none := by
  unfold binary at h
  split at h
  case h_1 => exact callable?_add h
  case h_9 | h_10 =>
    cases h
    rfl
  case h_11 => cases h
  all_goals exact callable?_numbers (fun _ _ => rfl) h

end Operation

/-- Values that are shown alike and that no operation tells apart. -/
inductive Value.Resembles : Value → Value → Prop
  | plain {v : Value} (h : ∀ f, v ≠ .function f) : Resembles v v
  | function {f f' : Closure} (hidentity : f'.identity = f.identity)
      (hlexeme : f'.name.lexeme = f.name.lexeme) : Resembles (.function f) (.function f')

namespace Value.Resembles

variable {v v' x x' y y' : Value}

/-- Functions are true, whichever they are. -/
theorem isTruthy (h : v.Resembles v') : v'.isTruthy = v.isTruthy := by
  cases h <;> rfl

/-- A function is written with its name alone. -/
theorem text (h : v.Resembles v') : v'.text = v.text := by
  cases h with
  | plain => rfl
  | function _ hlexeme => rw [Value.text, Value.text, hlexeme]

/-- Functions are equal if their identities are. -/
theorem equals (hx : x.Resembles x') (hy : y.Resembles y') : x'.equals y' = x.equals y := by
  cases hx with
  | plain hx =>
    cases hy with
    | plain => rfl
    | function => cases x <;> first | rfl | exact absurd rfl (hx _)
  | function hf =>
    cases hy with
    | plain hy => cases y <;> first | rfl | exact absurd rfl (hy _)
    | function hg => rw [Value.equals, Value.equals, hf, hg]

theorem unary (h : v.Resembles v') (kind : Kind) :
    Operation.unary kind v' = Operation.unary kind v := by
  cases h <;> rfl

theorem numbers (hx : x.Resembles x') (hy : y.Resembles y') (result : Float → Float → Value) :
    Operation.numbers x' y' result = Operation.numbers x y result := by
  cases hx with
  | plain =>
    cases hy with
    | plain => rfl
    | function => cases x <;> rfl
  | function => rfl

theorem add (hx : x.Resembles x') (hy : y.Resembles y') :
    Operation.add x' y' = Operation.add x y := by
  cases hx with
  | plain =>
    cases hy with
    | plain => rfl
    | function => cases x <;> rfl
  | function => rfl

/-- An operator cannot tell values apart that resemble each other. -/
theorem binary (hx : x.Resembles x') (hy : y.Resembles y') (kind : Kind) :
    Operation.binary kind x' y' = Operation.binary kind x y := by
  unfold Operation.binary
  simp only [hx.numbers hy, hx.add hy, hx.equals hy]

/-- A logical operator cannot tell values apart that resemble each other. -/
theorem shortCircuits (h : v.Resembles v') (kind : Kind) :
    Operation.shortCircuits kind v' = Operation.shortCircuits kind v := by
  unfold Operation.shortCircuits
  rw [h.isTruthy]

end Value.Resembles

end Lox
