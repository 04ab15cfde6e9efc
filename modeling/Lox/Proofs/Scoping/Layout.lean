import Lox.Proofs.Scoping.Proper

/-!
Chains of scopes side by side. Two places in much the same text have the same scopes around them but
for some that only one of them has, and declare nothing. The innermost scope that declares a name is
then the same for both, at distances that differ by the scopes in between. Chains of frames lie side
by side in the same way.
-/

namespace Lox

inductive Side
  | first
  | second

/-- A scope or a frame that is on both chains, or on one only. -/
inductive Level
  | both
  | only (side : Side)

/-- How two chains lie side by side, from the innermost level on. Beyond these levels they
    correspond one by one. -/
abbrev Layout := List Level

namespace Layout

/-- The innermost level is on both chains. -/
def Aligned (c : Layout) : Prop :=
  ∀ side, c.head? ≠ some (.only side)

/-- No level is on one chain only. -/
def Even (c : Layout) : Prop :=
  ∀ level ∈ c, level = .both

/-- From the places where the chains begin, these distances lead to the same level. -/
inductive Meets : Layout → Nat → Nat → Prop
  | here {c : Layout} (hc : Aligned c) : Meets c 0 0
  | further {c : Layout} (hc : Aligned c) (h : Meets c.tail d d') : Meets c (d + 1) (d' + 1)
  | first (h : Meets c d d') : Meets (.only .first :: c) (d + 1) d'
  | second (h : Meets c d d') : Meets (.only .second :: c) d (d' + 1)

/-- Scopes that lie so. A scope of one chain only declares nothing. -/
inductive Spaced : Layout → List Scope → List Scope → Prop
  | same : Spaced [] scopes scopes
  | both {scope : Scope} (h : Spaced c scopes scopes') :
      Spaced (.both :: c) (scope :: scopes) (scope :: scopes')
  | first (h : Spaced c scopes scopes') : Spaced (.only .first :: c) ([] :: scopes) scopes'
  | second (h : Spaced c scopes scopes') : Spaced (.only .second :: c) scopes ([] :: scopes')

variable {c : Layout} {d : Nat} {scopes scopes' : List Scope}

@[simp]
theorem aligned_nil : Aligned [] :=
  fun _ => nofun

@[simp]
theorem aligned_both : Aligned (.both :: c) :=
  fun _ => nofun

theorem Even.nil : Even [] :=
  List.forall_mem_nil _

theorem Even.both (hc : Even c) : Even (.both :: c) :=
  List.forall_mem_cons.mpr ⟨rfl, hc⟩

/-- Where all levels are on both chains, the innermost is. -/
theorem Even.aligned (hc : Even c) : Aligned c := by
  intro side hside
  cases hc _ (List.mem_of_mem_head? hside)

/-- Where the chains are even, the same distance leads to the same level. -/
theorem Even.meets (hc : Even c) : Meets c d d := by
  induction d generalizing c with
  | zero => exact .here hc.aligned
  | succ d ih =>
    exact .further hc.aligned (ih fun level hlevel => hc level (List.mem_of_mem_tail hlevel))

namespace Spaced

/-- A declaration is recorded on both chains, in a scope that both have. -/
theorem record (h : Spaced c scopes scopes') (hc : Aligned c) (name : Token) (defined : Bool) :
    Spaced c (Scope.record name defined scopes) (Scope.record name defined scopes') := by
  cases h with
  | same => exact .same
  | both h => exact .both h
  | first => exact absurd rfl (hc .first)
  | second => exact absurd rfl (hc .second)

/-- The regions around do not matter. -/
theorem record_nest {nest nest' : Nest} (h : Spaced c nest.scopes nest'.scopes) (hc : Aligned c)
    (name : Token) (defined : Bool) :
    Spaced c (nest.record name defined).scopes (nest'.record name defined).scopes := by
  rw [Nest.scopes_record, Nest.scopes_record]
  exact h.record hc name defined

/-- The innermost scope that declares the name is the same on both chains. -/
theorem distance? (h : Spaced c scopes scopes') (name : Token) :
    Option.Rel (Meets c) (Scope.distance? scopes name) (Scope.distance? scopes' name) := by
  induction h with
  | @same scopes =>
    generalize Scope.distance? scopes name = found
    cases found with
    | none => exact .none
    | some d => exact .some Even.nil.meets
  | @both c scopes scopes' scope h ih =>
    rw [Scope.distance?_cons, Scope.distance?_cons]
    split
    · exact .some (.here aligned_both)
    · generalize Scope.distance? scopes name = found, Scope.distance? scopes' name = found' at ih ⊢
      cases ih with
      | none => exact .none
      | some hmeets => exact .some (.further aligned_both hmeets)
  | @first c scopes scopes' h ih =>
    rw [Scope.distance?_cons]
    generalize Scope.distance? scopes name = found, Scope.distance? scopes' name = found' at ih ⊢
    cases ih with
    | none => exact .none
    | some hmeets => exact .some (.first hmeets)
  | @second c scopes scopes' h ih =>
    rw [Scope.distance?_cons]
    generalize Scope.distance? scopes name = found, Scope.distance? scopes' name = found' at ih ⊢
    cases ih with
    | none => exact .none
    | some hmeets => exact .some (.second hmeets)

end Spaced

end Layout

end Lox
