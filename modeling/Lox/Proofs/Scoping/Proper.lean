import Lox.Proofs.Grammar.Program
import Lox.Proofs.Scoping.Place

/-!
A declaration stands only where a new binding has a scope to itself or to share: never alone as a
branch or as the body of a loop, where it might or might not be executed. The grammar sees to this,
and it is why a statement that is not a declaration leaves the scopes around it as they were.
-/

namespace Lox

variable {ρ : Type}

def Stmt.declares : Stmt ρ → Bool
  | .var _ _ | .function _ _ _ => true
  | _ => false

mutual

/-- No branch and no body of a loop is a declaration. -/
def Stmt.Proper : Stmt ρ → Prop
  | .block body => Stmt.ProperAll body
  | .if _ thenBranch none => thenBranch.Proper ∧ thenBranch.declares = false
  | .if _ thenBranch (some elseBranch) =>
    (thenBranch.Proper ∧ thenBranch.declares = false) ∧
      elseBranch.Proper ∧ elseBranch.declares = false
  | .while _ body => body.Proper ∧ body.declares = false
  | .function _ _ body => Stmt.ProperAll body
  | .expression _ | .print _ | .var _ _ | .return _ _ => True

def Stmt.ProperAll : List (Stmt ρ) → Prop
  | [] => True
  | s :: rest => s.Proper ∧ Stmt.ProperAll rest

end

/-- Statements in a row are proper if each of them is. -/
theorem Stmt.properAll_iff {ss : List (Stmt ρ)} : Stmt.ProperAll ss ↔ ∀ s ∈ ss, s.Proper := by
  induction ss with
  | nil => simp [Stmt.ProperAll]
  | cons s rest ih => simp [Stmt.ProperAll, ih]

/-- A statement in the narrow sense, which is not a declaration. -/
def Stmt.Plain (s : Stmt ρ) : Prop :=
  s.Proper ∧ s.declares = false

namespace Grammar

/-- A declared variable has no statements in it. -/
theorem DerivesVariable.proper {ts : List Token} {s : Stmt Unit} (h : DerivesVariable ts s) :
    s.Proper := by
  cases h <;> simp [Stmt.Proper]

/-- The blocks of a loop stand where declarations may. -/
theorem proper_forLoop {ts : List Token} {initializer : Option (Stmt Unit)}
    {condition increment : Option (Expr Unit)} {body : Stmt Unit}
    (hfirst : DerivesInitializer ts initializer) (hbody : body.Proper)
    (hdeclares : body.declares = false) :
    (forLoop initializer condition increment body).Proper ∧
      (forLoop initializer condition increment body).declares = false := by
  have hloop (t : Stmt Unit) (ht : t.Proper) (hdeclares : t.declares = false) :
      (forLoop initializer condition none t).Proper ∧
        (forLoop initializer condition none t).declares = false := by
    cases hfirst with
    | absent => exact ⟨⟨ht, hdeclares⟩, rfl⟩
    | «variable» _ h => exact ⟨⟨h.proper, ⟨ht, hdeclares⟩, trivial⟩, rfl⟩
    | expression => exact ⟨⟨trivial, ⟨ht, hdeclares⟩, trivial⟩, rfl⟩
  cases increment with
  | none => exact hloop _ hbody hdeclares
  | some e => exact hloop (.block [body, .expression e]) ⟨hbody, trivial, trivial⟩ rfl

/-- Every tree of the grammar is proper. -/
theorem Category.Derives.proper {nearest dangling : Bool} {c : Category} {ts : List Token}
    {s : Stmt Unit} (h : c.Derives nearest ts s dangling) :
    s.Proper ∧ (c = .statement → s.declares = false) := by
  induction h with
  | function _ _ _ _ _ _ _ _ _ _ ih =>
    refine ⟨?_, by simp⟩
    rw [Stmt.Proper, Stmt.properAll_iff]
    exact List.forall_mem_map.mpr fun part hpart => (ih part hpart).1
  | «variable» _ h => exact ⟨h.proper, by simp⟩
  | statement _ ih => exact ⟨ih.1, by simp⟩
  | expression | print | «return» => simp [Stmt.Proper, Stmt.declares]
  | block _ _ _ ih =>
    refine ⟨?_, fun _ => rfl⟩
    rw [Stmt.Proper, Stmt.properAll_iff]
    exact List.forall_mem_map.mpr fun part hpart => (ih part hpart).1
  | ifThen _ _ _ _ _ ih => exact ⟨⟨ih.1, ih.2 rfl⟩, fun _ => rfl⟩
  | ifElse _ _ _ _ _ _ _ _ ihthen ihother =>
    exact ⟨⟨⟨ihthen.1, ihthen.2 rfl⟩, ihother.1, ihother.2 rfl⟩, fun _ => rfl⟩
  | «while» _ _ _ _ _ ih => exact ⟨⟨ih.1, ih.2 rfl⟩, fun _ => rfl⟩
  | «for» _ _ hfirst _ _ _ _ _ ih =>
    obtain ⟨hproper, hdeclares⟩ := proper_forLoop hfirst ih.1 (ih.2 rfl)
    exact ⟨hproper, fun _ => hdeclares⟩

/-- The grammar lets declarations stand only where they are proper. -/
theorem DerivesProgram.proper {nearest : Bool} {ts : List Token} {program : List (Stmt Unit)}
    (h : DerivesProgram nearest ts program) : Stmt.ProperAll program := by
  obtain ⟨parts, -, rfl, hparts⟩ := h
  rw [Stmt.properAll_iff]
  exact List.forall_mem_map.mpr fun part hpart => (hparts part hpart).proper.1

end Grammar

/-- Numbering leaves declarations alone. -/
theorem Stmt.declares_number (next : RefId) (s : Stmt ρ) :
    (s.number next).1.declares = s.declares := by
  cases s with
  | var name initializer => cases initializer <;> rfl
  | «if» condition thenBranch elseBranch => cases elseBranch <;> rfl
  | «return» keyword value => cases value <;> rfl
  | _ => rfl

mutual

/-- Numbering keeps a tree proper. -/
theorem Stmt.Proper.number {s : Stmt ρ} (h : s.Proper) (next : RefId) :
    (s.number next).1.Proper := by
  cases s with
  | expression | print => trivial
  | var name initializer => cases initializer <;> trivial
  | block body =>
    rw [Stmt.Proper] at h
    exact Stmt.ProperAll.number h next
  | function name parameters body =>
    rw [Stmt.Proper] at h
    exact Stmt.ProperAll.number h next
  | «if» condition thenBranch elseBranch =>
    cases elseBranch with
    | none =>
      exact ⟨Stmt.Proper.number h.1 _, (Stmt.declares_number _ _).trans h.2⟩
    | some elseBranch =>
      exact ⟨⟨Stmt.Proper.number h.1.1 _, (Stmt.declares_number _ _).trans h.1.2⟩,
        Stmt.Proper.number h.2.1 _, (Stmt.declares_number _ _).trans h.2.2⟩
  | «while» condition body =>
    exact ⟨Stmt.Proper.number h.1 _, (Stmt.declares_number _ _).trans h.2⟩
  | «return» keyword value => cases value <;> trivial

theorem Stmt.ProperAll.number {ss : List (Stmt ρ)} (h : Stmt.ProperAll ss) (next : RefId) :
    Stmt.ProperAll (Stmt.numberAll next ss).1 := by
  cases ss with
  | nil => trivial
  | cons s rest => exact ⟨Stmt.Proper.number h.1 _, Stmt.ProperAll.number h.2 _⟩

end

/-- Only declarations change the scopes that a proper statement stands in. -/
theorem Stmt.Proper.places_snd {s : Stmt RefId} (h : s.Proper) (hdeclares : s.declares = false)
    (nest : Nest) : (s.places nest).2 = nest := by
  cases s with
  | expression | print | block => rfl
  | var | function => cases hdeclares
  | «if» condition thenBranch elseBranch =>
    cases elseBranch with
    | none => exact Stmt.Proper.places_snd h.1 h.2 nest
    | some elseBranch =>
      have hthen := Stmt.Proper.places_snd h.1.1 h.1.2 nest
      have helse := Stmt.Proper.places_snd h.2.1 h.2.2 nest
      rw [Stmt.places, hthen, helse]
  | «while» condition body => exact Stmt.Proper.places_snd h.1 h.2 nest
  | «return» keyword value => cases value <;> rfl

/-- Names of the global scope are not recorded. -/
theorem Stmt.places_nil_snd (s : Stmt RefId) : (s.places []).2 = [] := by
  cases s with
  | expression | print | block | function => rfl
  | var name initializer => cases initializer <;> rfl
  | «if» condition thenBranch elseBranch =>
    cases elseBranch with
    | none => exact Stmt.places_nil_snd thenBranch
    | some elseBranch =>
      rw [Stmt.places, Stmt.places_nil_snd thenBranch]
      exact Stmt.places_nil_snd elseBranch
  | «while» condition body => exact Stmt.places_nil_snd body
  | «return» keyword value => cases value <;> rfl

/-- Statements outside all scopes are walked one by one. -/
theorem findingsOf_cons (s : Stmt RefId) (ss : List (Stmt RefId)) :
    findingsOf (s :: ss) = (s.findings false []).1 ++ findingsOf ss := by
  have hscopes : (s.findings false []).2 = [] := by
    have hplaces := (Stmt.findings_places false [] s).1
    rw [Stmt.places_nil_snd s] at hplaces
    exact hplaces
  rw [findingsOf, Stmt.findingsAll, hscopes]
  rfl

/-- No statement outside all scopes says anything about the names in the next. -/
theorem findingsOf_append (ss ts : List (Stmt RefId)) :
    findingsOf (ss ++ ts) = findingsOf ss ++ findingsOf ts := by
  induction ss with
  | nil => rfl
  | cons s ss ih =>
    rw [List.cons_append, findingsOf_cons, findingsOf_cons, ih]
    exact congrArg₂ Findings.mk (List.append_assoc ..).symm (List.append_assoc ..).symm

end Lox
