import Mathlib.Data.List.Forall2
import Lox.Token

namespace Lox

/-- How the names of one frame correspond, one to one, to those of another. -/
structure Naming where
  Same : String → String → Prop
  eq_iff : ∀ {n n' m m' : String}, Same n n' → Same m m' → (n = m ↔ n' = m')

namespace Naming

/-- All names are the same. -/
def plain : Naming where
  Same n n' := n' = n
  eq_iff := by
    rintro n _ m _ rfl rfl
    exact Iff.rfl

/-- The naming of a frame, given those of the frames from there up to the globals. The globals are
    not on the list, because their names are the same. -/
def innermost (c : List Naming) : Naming :=
  c.headD plain

/-- The naming that counts for a reference with this entry. -/
def ofEntry (c : List Naming) : Option Nat → Naming
  | none => plain
  | some distance => innermost (c.drop distance)

/-- Where every frame keeps its names, the innermost does. -/
theorem innermost_eq_plain {c : List Naming} (h : ∀ N ∈ c, N = plain) : innermost c = plain := by
  cases c with
  | nil => rfl
  | cons N c => exact h N (List.mem_cons_self ..)

/-- Where every frame keeps its names, each reference does. -/
theorem ofEntry_eq_plain {c : List Naming} (h : ∀ N ∈ c, N = plain) (entry : Option Nat) :
    ofEntry c entry = plain := by
  cases entry with
  | none => rfl
  | some distance => exact innermost_eq_plain fun N hN => h N (List.drop_subset distance c hN)

/-- Parameters that name the variables of a frame. -/
def Parameters (N : Naming) (parameters parameters' : List Token) : Prop :=
  List.Forall₂ (fun p p' => N.Same p.lexeme p'.lexeme) parameters parameters'

end Naming

end Lox
