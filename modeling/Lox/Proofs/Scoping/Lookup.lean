import Lox.Proofs.Scoping.Respelling

namespace Lox

namespace Respelling

/-- The names of the scope, respelled. -/
def scope (r : Respelling) (scope : Scope) : Scope :=
  scope.map fun entry => (r.name entry.1, entry.2)

/-- The last of these scopes has respelled names. -/
def scopes (r : Respelling) : List Scope → List Scope
  | [] => []
  | [scope] => [r.scope scope]
  | scope :: scope' :: outer => scope :: r.scopes (scope' :: outer)

/-- None of these scopes declares the new name. -/
def Unused (r : Respelling) (scopes : List Scope) : Prop :=
  ∀ scope ∈ scopes, ∀ entry ∈ scope, entry.1 ≠ r.new

variable {r : Respelling} {S T : Scope} {inner outer : List Scope} {n m : String} {name : Token}

/-- Different names stay different if none is the new one. -/
theorem name_eq_iff (hn : n ≠ r.new) (hm : m ≠ r.new) : r.name n = r.name m ↔ n = m := by
  refine ⟨fun heq => ?_, congrArg r.name⟩
  by_cases hold : n = r.old
  · by_cases hold' : m = r.old
    · exact hold.trans hold'.symm
    · rw [hold, name_old, name_of_ne hold'] at heq
      exact absurd heq.symm hm
  · by_cases hold' : m = r.old
    · rw [hold', name_old, name_of_ne hold] at heq
      exact absurd heq hn
    · rwa [name_of_ne hold, name_of_ne hold'] at heq

/-- The old name is gone. -/
theorem name_ne_old (hn : n ≠ r.new) : r.name n ≠ r.old := by
  intro heq
  by_cases hold : n = r.old
  · rw [hold, name_old] at heq
    exact hn (hold.trans heq.symm)
  · rw [name_of_ne hold] at heq
    exact hold heq

section Lookup

/-! A respelled scope has the respelled names and no others. -/

theorem lookup_of_unused (h : ∀ entry ∈ S, entry.1 ≠ r.new) : S.lookup r.new = none := by
  rw [List.lookup_eq_none_iff]
  intro entry hentry
  simpa using (h entry hentry).symm

/-- In a respelled scope the respelled name has the entry of the old one. -/
theorem lookup_scope_name (h : ∀ entry ∈ S, entry.1 ≠ r.new) (hn : n ≠ r.new) :
    (r.scope S).lookup (r.name n) = S.lookup n := by
  induction S with
  | nil => rfl
  | cons entry S ih =>
    rw [List.forall_mem_cons] at h
    have heq : (r.name n == r.name entry.1) = (n == entry.1) := by
      rw [Bool.eq_iff_iff, beq_iff_eq, beq_iff_eq, name_eq_iff hn h.1]
    rw [scope, List.map_cons, List.lookup_cons, List.lookup_cons, heq, ← scope, ih h.2]

/-- A respelled scope has no entry for the old name. -/
theorem lookup_scope_old (h : ∀ entry ∈ S, entry.1 ≠ r.new) :
    (r.scope S).lookup r.old = none := by
  rw [List.lookup_eq_none_iff]
  intro entry hentry
  obtain ⟨entry', hentry', rfl⟩ := List.mem_map.mp hentry
  simpa using (name_ne_old (h entry' hentry')).symm

/-- A name that the scope does not declare is not declared when the scope is respelled. -/
theorem lookup_scope_of_none (h : ∀ entry ∈ S, entry.1 ≠ r.new) (hn : n ≠ r.new)
    (hnone : S.lookup n = none) : (r.scope S).lookup n = none := by
  by_cases hold : n = r.old
  · rw [hold]
    exact lookup_scope_old h
  · have hlookup := lookup_scope_name h hn
    rwa [name_of_ne hold, hnone] at hlookup

end Lookup

section Reference

/-- A scope that does not declare the name is passed by. -/
theorem distance?_cons_of_none (h : S.lookup name.lexeme = none) (scopes : List Scope) :
    Scope.distance? (S :: scopes) name = (Scope.distance? scopes name).map (· + 1) := by
  rw [Scope.distance?_cons, h]
  rfl

/-- A scope that declares the name is where it leads. -/
theorem distance?_cons_of_isSome (h : (S.lookup name.lexeme).isSome) (scopes : List Scope) :
    Scope.distance? (S :: scopes) name = some 0 := by
  rw [Scope.distance?_cons, if_pos h]

/-- In the innermost of several scopes a name is not respelled. -/
theorem reference_of_isSome (h : (S.lookup name.lexeme).isSome) :
    r.reference (S :: T :: inner) name = name := by
  rw [reference, distance?_cons_of_isSome h]
  simp

/-- Passing a scope by does not change whether a name is respelled. -/
theorem reference_of_none (h : S.lookup name.lexeme = none) :
    r.reference (S :: T :: inner) name = r.reference (T :: inner) name := by
  rw [reference, reference, distance?_cons_of_none h]
  simp

/-- In the respelled scope itself its variables are respelled. -/
theorem reference_single_of_isSome (h : (S.lookup name.lexeme).isSome) :
    r.reference [S] name = r.token name := by
  rw [reference, distance?_cons_of_isSome h]
  rfl

theorem reference_single_of_none (h : S.lookup name.lexeme = none) :
    r.reference [S] name = name := by
  rw [reference, distance?_cons_of_none h]
  rfl

/-- A reference keeps its name or has the new one. -/
theorem lexeme_reference (scopes : List Scope) (name : Token) :
    (r.reference scopes name).lexeme = name.lexeme ∨
      (r.reference scopes name).lexeme = r.name name.lexeme := by
  unfold reference
  split
  · exact .inr rfl
  · exact .inl rfl

/-- A scope that declares neither the name of a reference nor the new one has nothing to do with
    the reference, respelled or not. -/
theorem lookup_reference_of_none (h : ∀ entry ∈ S, entry.1 ≠ r.new)
    (hnone : S.lookup name.lexeme = none) (scopes : List Scope) :
    S.lookup (r.reference scopes name).lexeme = none := by
  rcases lexeme_reference (r := r) scopes name with hlexeme | hlexeme
  · rwa [hlexeme]
  · rw [hlexeme]
    by_cases hold : name.lexeme = r.old
    · rw [hold, name_old]
      exact lookup_of_unused h
    · rwa [name_of_ne hold]

/-- A respelled reference is as far from its scope as before. -/
theorem distance?_respelled (hunused : r.Unused inner) (hname : name.lexeme ≠ r.new) :
    Scope.distance? (r.scopes inner ++ outer) (r.reference inner name) =
      Scope.distance? (inner ++ outer) name := by
  -- The last of the inner scopes is the respelled one, all others keep the names they declare.
  induction inner with
  | nil => rfl
  | cons S inner ih =>
    unfold Unused at hunused
    rw [List.forall_mem_cons] at hunused
    cases hlookup : S.lookup name.lexeme with
    | none =>
      cases inner with
      | nil =>
        have hlookup' := lookup_scope_of_none hunused.1 hname hlookup
        rw [reference_single_of_none hlookup, scopes, List.singleton_append, List.singleton_append,
          distance?_cons_of_none hlookup, distance?_cons_of_none hlookup']
      | cons T inner =>
        have hlookup' := lookup_reference_of_none hunused.1 hlookup (T :: inner)
        rw [reference_of_none hlookup, scopes, List.cons_append, List.cons_append,
          distance?_cons_of_none hlookup, distance?_cons_of_none hlookup', ih hunused.2]
    | some defined =>
      have hsome : (S.lookup name.lexeme).isSome := by rw [hlookup]; rfl
      cases inner with
      | nil =>
        have hsome' : ((r.scope S).lookup (r.token name).lexeme).isSome := by
          rwa [lexeme_token, lookup_scope_name hunused.1 hname]
        rw [reference_single_of_isSome hsome, scopes, List.singleton_append, List.singleton_append,
          distance?_cons_of_isSome hsome, distance?_cons_of_isSome hsome']
      | cons T inner =>
        rw [reference_of_isSome hsome, scopes, List.cons_append, List.cons_append,
          distance?_cons_of_isSome hsome, distance?_cons_of_isSome hsome]

theorem isPending_cons (S : Scope) (scopes : List Scope) (name : Token) :
    Scope.isPending (S :: scopes) name = (S.lookup name.lexeme == some false) := rfl

/-- A respelled reference is in its own initializer just if it was before. -/
theorem isPending_respelled (hunused : r.Unused inner) (hname : name.lexeme ≠ r.new) :
    Scope.isPending (r.scopes inner ++ outer) (r.reference inner name) =
      Scope.isPending (inner ++ outer) name := by
  cases inner with
  | nil => rfl
  | cons S inner =>
    have hS := hunused S (List.mem_cons_self ..)
    cases hlookup : S.lookup name.lexeme with
    | none =>
      cases inner with
      | nil =>
        rw [reference_single_of_none hlookup, scopes, List.singleton_append, List.singleton_append,
          isPending_cons, isPending_cons, hlookup, lookup_scope_of_none hS hname hlookup]
      | cons T inner =>
        rw [scopes, List.cons_append, List.cons_append, isPending_cons, isPending_cons, hlookup,
          lookup_reference_of_none hS hlookup]
    | some defined =>
      have hsome : (S.lookup name.lexeme).isSome := by rw [hlookup]; rfl
      cases inner with
      | nil =>
        rw [reference_single_of_isSome hsome, scopes, List.singleton_append, List.singleton_append,
          isPending_cons, isPending_cons, lexeme_token, lookup_scope_name hS hname]
      | cons T inner =>
        rw [reference_of_isSome hsome, scopes, List.cons_append, List.cons_append, isPending_cons,
          isPending_cons]

end Reference

section Declared

/-- A declaration is recorded respelled. -/
theorem scopes_record (hinner : inner ≠ []) (name : Token) (defined : Bool) :
    Scope.record (r.declared inner name) defined (r.scopes inner ++ outer) =
      r.scopes (Scope.record name defined inner) ++ outer := by
  cases inner with
  | nil => exact absurd rfl hinner
  | cons S inner =>
    cases inner with
    | nil => rfl
    | cons T inner => rfl

theorem length_record (name : Token) (defined : Bool) (scopes : List Scope) :
    (Scope.record name defined scopes).length = scopes.length := by
  cases scopes <;> rfl

theorem unused_record (hunused : r.Unused inner) (hname : name.lexeme ≠ r.new) (defined : Bool) :
    r.Unused (Scope.record name defined inner) := by
  cases inner with
  | nil => exact hunused
  | cons S inner =>
    unfold Unused at hunused ⊢
    rw [List.forall_mem_cons] at hunused
    refine List.forall_mem_cons.mpr ⟨List.forall_mem_cons.mpr ⟨hname, hunused.1⟩, hunused.2⟩

/-- A function is not respelled, and need not be. -/
theorem declared_of_ne (h : inner.length = 1 → name.lexeme ≠ r.old) :
    r.declared inner name = name := by
  unfold declared
  split
  · exact token_of_ne (h ‹_›)
  · rfl

/-- The scope of respelled parameters is the respelled scope of the parameters. -/
theorem ofParameters_respelled (r : Respelling) (parameters : List Token) :
    Scope.ofParameters (parameters.map r.token) = r.scope (Scope.ofParameters parameters) := by
  have hfold (S : Scope) :
      (parameters.map r.token).foldl (fun scope p => (p.lexeme, true) :: scope) (r.scope S) =
        r.scope (parameters.foldl (fun scope p => (p.lexeme, true) :: scope) S) := by
    induction parameters generalizing S with
    | nil => rfl
    | cons p parameters ih => exact ih ((p.lexeme, true) :: S)
  exact hfold []

/-- Parameters that avoid the new name do not declare it. -/
theorem unused_ofParameters {parameters : List Token}
    (h : List.Forall₂ (fun t t' => t' = t ∧ t.lexeme ≠ r.new) parameters parameters) :
    ∀ entry ∈ Scope.ofParameters parameters, entry.1 ≠ r.new := by
  rw [List.forall₂_same] at h
  have hfold (S : Scope) (hS : ∀ entry ∈ S, entry.1 ≠ r.new) :
      ∀ entry ∈ parameters.foldl (fun scope p => (p.lexeme, true) :: scope) S,
        entry.1 ≠ r.new := by
    induction parameters generalizing S with
    | nil => exact hS
    | cons p parameters ih =>
      rw [List.forall_mem_cons] at h
      exact ih h.2 _ (List.forall_mem_cons.mpr ⟨h.1.2, hS⟩)
  exact hfold [] (by simp)

end Declared

end Respelling

end Lox
