import Lox.Proofs.Scoping.Place

namespace Lox

/-- Parameters are defined from the beginning. -/
theorem Scope.mem_ofParameters {parameters : List Token} {name : String} {defined : Bool} :
    (name, defined) ∈ Scope.ofParameters parameters ↔
      defined = true ∧ ∃ p ∈ parameters, p.lexeme = name := by
  have hfold (scope : Scope) :
      (name, defined) ∈ parameters.foldl (fun scope p => (p.lexeme, true) :: scope) scope ↔
        (defined = true ∧ ∃ p ∈ parameters, p.lexeme = name) ∨ (name, defined) ∈ scope := by
    induction parameters generalizing scope with
    | nil => simp
    | cons p parameters ih =>
      rw [List.foldl_cons, ih]
      simp only [List.mem_cons, Prod.mk.injEq, exists_eq_or_imp]
      constructor
      · rintro (⟨rfl, h⟩ | ⟨rfl, rfl⟩ | h)
        · exact .inl ⟨rfl, .inr h⟩
        · exact .inl ⟨rfl, .inl rfl⟩
        · exact .inr h
      · rintro (⟨rfl, rfl | h⟩ | h)
        · exact .inr (.inl ⟨rfl, rfl⟩)
        · exact .inl ⟨rfl, h⟩
        · exact .inr (.inr h)
  exact (hfold []).trans (by simp only [List.not_mem_nil, or_false])

/-- Every declared name is defined, as it is where no initializer is being walked. -/
def Nest.Settled (nest : Nest) : Prop :=
  ∀ r ∈ nest, ∀ name defined, (name, defined) ∈ r.2 → (name, true) ∈ r.2

namespace Nest.Settled

variable {nest : Nest} {region : Region} {scope : Scope} {name : Token}

/-- A scope of defined names may be opened. -/
theorem cons (h : nest.Settled) (hscope : ∀ n defined, (n, defined) ∈ scope → (n, true) ∈ scope) :
    Nest.Settled ((region, scope) :: nest) :=
  List.forall_mem_cons.mpr ⟨hscope, h⟩

theorem tail (h : nest.Settled) : Nest.Settled nest.tail :=
  fun r hr => h r (List.mem_of_mem_tail hr)

/-- A name that is defined is settled, whether or not it was declared just before. -/
theorem record (h : nest.Settled) : Nest.Settled (nest.record name true) := by
  cases nest with
  | nil => exact h
  | cons r outer =>
    obtain ⟨hscope, houter⟩ := List.forall_mem_cons.mp h
    refine List.forall_mem_cons.mpr ⟨fun n defined hn => ?_, houter⟩
    rcases List.mem_cons.mp hn with heq | hn
    · obtain ⟨rfl, -⟩ := Prod.mk.inj heq
      exact List.mem_cons_self
    · exact List.mem_cons_of_mem _ (hscope n defined hn)

/-- Behind its initializer the name of a variable is defined. -/
theorem record_record (h : nest.Settled) :
    Nest.Settled ((nest.record name false).record name true) := by
  cases nest with
  | nil => exact h
  | cons r outer =>
    obtain ⟨hscope, houter⟩ := List.forall_mem_cons.mp h
    refine List.forall_mem_cons.mpr ⟨fun n defined hn => ?_, houter⟩
    rcases List.mem_cons.mp hn with heq | hn
    · obtain ⟨rfl, -⟩ := Prod.mk.inj heq
      exact List.mem_cons_self
    · rcases List.mem_cons.mp hn with heq | hn
      · obtain ⟨rfl, -⟩ := Prod.mk.inj heq
        exact List.mem_cons_self
      · exact List.mem_cons_of_mem _ (List.mem_cons_of_mem _ (hscope n defined hn))

end Nest.Settled

/-- Behind a statement every name is defined again. -/
theorem Nest.Settled.places {nest : Nest} (h : nest.Settled) (s : Stmt RefId) :
    Nest.Settled (s.places nest).2 := by
  cases s with
  | expression | print | block => exact h
  | var name initializer => cases initializer <;> exact h.record_record
  | function => exact h.record
  | «if» condition thenBranch elseBranch =>
    cases elseBranch with
    | none => exact Nest.Settled.places h thenBranch
    | some elseBranch => exact Nest.Settled.places (Nest.Settled.places h thenBranch) elseBranch
  | «while» condition body => exact Nest.Settled.places h body
  | «return» keyword value => cases value <;> exact h

end Lox
