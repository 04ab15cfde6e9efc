import Mathlib.Tactic
import Lox.Syntax.Reference

namespace Lox

variable {ρ : Type}

/-- The references have the identities from `next` up to `last`, in order. -/
structure Numbered (next last : Nat) (references : List (RefId × Token)) : Prop where
  le : next ≤ last
  identities : references.map Prod.fst = List.range' next (last - next)

namespace Numbered

variable {a b c : Nat} {refs refs' : List (RefId × Token)} {name : Token}

theorem nil : Numbered a a [] :=
  ⟨Nat.le_refl a, by simp⟩

theorem single : Numbered a (a + 1) [(a, name)] :=
  ⟨Nat.le_succ a, by simp⟩

/-- Two parts that are numbered one behind the other are numbered as one. -/
theorem append (h : Numbered a b refs) (h' : Numbered b c refs') :
    Numbered a c (refs ++ refs') := by
  have hle := h.le
  have hle' := h'.le
  refine ⟨by omega, ?_⟩
  have hstart : b = a + (b - a) := by omega
  have hcount : c - a = (b - a) + (c - b) := by omega
  rw [List.map_append, h.identities, h'.identities, hcount, ← List.range'_append_1, ← hstart]

/-- No identity is drawn twice. -/
theorem nodup (h : Numbered a b refs) : (refs.map Prod.fst).Nodup := by
  rw [h.identities]
  exact List.nodup_range'

/-- Every identity is drawn between the first and the last. -/
theorem mem_bounds (h : Numbered a b refs) {ref : Nat} (href : (ref, name) ∈ refs) :
    a ≤ ref ∧ ref < b := by
  have hmem : ref ∈ refs.map Prod.fst := List.mem_map_of_mem href
  rw [h.identities, List.mem_range'_1] at hmem
  have hle := h.le
  omega

end Numbered

mutual

/-- The references of an expression are numbered from the next identity on. -/
theorem Expr.numbered_number (next : RefId) (e : Expr ρ) :
    Numbered next (e.number next).2 (e.number next).1.references := by
  cases e with
  | literal => exact .nil
  | grouping inner => exact Expr.numbered_number next inner
  | unary operator operand => exact Expr.numbered_number next operand
  | binary left operator right | logical left operator right =>
    exact (Expr.numbered_number next left).append (Expr.numbered_number _ right)
  | var => exact .single
  | assign ref name value => exact (Expr.numbered_number next value).append .single
  | call callee paren arguments =>
    exact (Expr.numbered_number next callee).append (Expr.numbered_numberAll _ arguments)

theorem Expr.numbered_numberAll (next : RefId) (es : List (Expr ρ)) :
    Numbered next (Expr.numberAll next es).2 (Expr.referencesAll (Expr.numberAll next es).1) := by
  cases es with
  | nil => exact .nil
  | cons e es => exact (Expr.numbered_number next e).append (Expr.numbered_numberAll _ es)

end

mutual

/-- The references of a statement are numbered from the next identity on. -/
theorem Stmt.numbered_number (next : RefId) (s : Stmt ρ) :
    Numbered next (s.number next).2 (s.number next).1.references := by
  cases s with
  | expression e | print e => exact Expr.numbered_number next e
  | var name initializer =>
    cases initializer with
    | none => exact .nil
    | some e => exact Expr.numbered_number next e
  | block body | function name parameters body => exact Stmt.numbered_numberAll next body
  | «if» condition thenBranch elseBranch =>
    cases elseBranch with
    | none => exact (Expr.numbered_number next condition).append (Stmt.numbered_number _ thenBranch)
    | some elseBranch =>
      exact (Expr.numbered_number next condition).append
        ((Stmt.numbered_number _ thenBranch).append (Stmt.numbered_number _ elseBranch))
  | «while» condition body =>
    exact (Expr.numbered_number next condition).append (Stmt.numbered_number _ body)
  | «return» keyword value =>
    cases value with
    | none => exact .nil
    | some e => exact Expr.numbered_number next e

/-- And those of a program. -/
theorem Stmt.numbered_numberAll (next : RefId) (ss : List (Stmt ρ)) :
    Numbered next (Stmt.numberAll next ss).2 (Stmt.referencesAll (Stmt.numberAll next ss).1) := by
  cases ss with
  | nil => exact .nil
  | cons s rest => exact (Stmt.numbered_number next s).append (Stmt.numbered_numberAll _ rest)

end

/-- The references of programs in a row are numbered one program behind the other. -/
theorem Stmt.numberAll_append (next : RefId) (ss ts : List (Stmt ρ)) :
    Stmt.numberAll next (ss ++ ts) =
      ((Stmt.numberAll next ss).1 ++ (Stmt.numberAll (Stmt.numberAll next ss).2 ts).1,
        (Stmt.numberAll (Stmt.numberAll next ss).2 ts).2) := by
  induction ss generalizing next with
  | nil => rfl
  | cons s ss ih =>
    rw [List.cons_append, Stmt.numberAll, Stmt.numberAll, ih]
    rfl

end Lox
