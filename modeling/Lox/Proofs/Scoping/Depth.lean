import Lox.Proofs.Scoping.Table

namespace Lox

/-- A declaration opens no scope. -/
@[simp]
theorem Nest.length_record (nest : Nest) (name : Token) (defined : Bool) :
    (nest.record name defined).length = nest.length := by
  cases nest <;> rfl

mutual

/-- A statement opens no scope for what comes behind it. -/
@[simp]
theorem Stmt.length_places (nest : Nest) (s : Stmt RefId) :
    (s.places nest).2.length = nest.length := by
  cases s with
  | expression | print | block => rfl
  | var name initializer => cases initializer <;> simp [Stmt.places]
  | function => simp [Stmt.places]
  | «if» condition thenBranch elseBranch =>
    cases elseBranch with
    | none => exact Stmt.length_places nest thenBranch
    | some elseBranch =>
      exact (Stmt.length_places _ elseBranch).trans (Stmt.length_places nest thenBranch)
  | «while» condition body => exact Stmt.length_places nest body
  | «return» keyword value => cases value <;> rfl

/-- Behind its statements as many scopes are open as before. -/
@[simp]
theorem Stmt.length_placesAll (nest : Nest) (ss : List (Stmt RefId)) :
    (Stmt.placesAll nest ss).2.length = nest.length := by
  cases ss with
  | nil => rfl
  | cons s rest => exact (Stmt.length_placesAll _ rest).trans (Stmt.length_places nest s)

end

/-- Each of these places has one of those for its counterpart: the same expression, as deep below
    the one nest as below the other. -/
def Nest.Matches (nest nest' : Nest) (ps qs : List Place) : Prop :=
  ∀ p ∈ ps, ∃ q ∈ qs, q.expression = p.expression ∧
    p.nest.length + nest'.length = q.nest.length + nest.length

namespace Nest.Matches

variable {nest nest' : Nest} {ps ps' qs qs' : List Place}

theorem of_length {inner inner' : Nest} (h : inner.Matches inner' ps qs)
    (hlength : inner.length + nest'.length = inner'.length + nest.length) :
    nest.Matches nest' ps qs := by
  intro p hp
  obtain ⟨q, hq, hexpression, hdepth⟩ := h p hp
  exact ⟨q, hq, hexpression, by omega⟩

theorem nil : nest.Matches nest' [] [] := by
  simp [Nest.Matches]

theorem cons (e : Expr RefId) (h : nest.Matches nest' ps qs) :
    nest.Matches nest' (⟨nest, e⟩ :: ps) (⟨nest', e⟩ :: qs) := by
  intro p hp
  rcases List.mem_cons.mp hp with rfl | hp
  · exact ⟨_, List.mem_cons_self, rfl, Nat.add_comm _ _⟩
  · obtain ⟨q, hq, hmatch⟩ := h p hp
    exact ⟨q, List.mem_cons_of_mem _ hq, hmatch⟩

theorem append (h : nest.Matches nest' ps qs) (h' : nest.Matches nest' ps' qs') :
    nest.Matches nest' (ps ++ ps') (qs ++ qs') := by
  intro p hp
  rcases List.mem_append.mp hp with hp | hp
  · obtain ⟨q, hq, hmatch⟩ := h p hp
    exact ⟨q, List.mem_append_left _ hq, hmatch⟩
  · obtain ⟨q, hq, hmatch⟩ := h' p hp
    exact ⟨q, List.mem_append_right _ hq, hmatch⟩

end Nest.Matches

mutual

/-- The same statement has its places equally deep, wherever it stands. -/
theorem Stmt.matches_places (nest nest' : Nest) (s : Stmt RefId) :
    nest.Matches nest' (s.places nest).1 (s.places nest').1 := by
  cases s with
  | expression e | print e => exact .cons e .nil
  | var name initializer =>
    cases initializer with
    | none => exact .nil
    | some e => exact (Nest.Matches.cons e .nil).of_length (by simp [Nat.add_comm])
  | block body =>
    exact (Stmt.matches_placesAll _ _ body).of_length (by simp; omega)
  | «if» condition thenBranch elseBranch =>
    have hthen := Stmt.matches_places nest nest' thenBranch
    cases elseBranch with
    | none => exact .cons condition hthen
    | some elseBranch =>
      have helse := Stmt.matches_places (thenBranch.places nest).2 (thenBranch.places nest').2
        elseBranch
      exact .cons condition (hthen.append (helse.of_length (by simp [Nat.add_comm])))
  | «while» condition body => exact .cons condition (Stmt.matches_places nest nest' body)
  | function name parameters body =>
    exact (Stmt.matches_placesAll _ _ body).of_length (by simp; omega)
  | «return» keyword value =>
    cases value with
    | none => exact .nil
    | some e => exact .cons e .nil

theorem Stmt.matches_placesAll (nest nest' : Nest) (ss : List (Stmt RefId)) :
    nest.Matches nest' (Stmt.placesAll nest ss).1 (Stmt.placesAll nest' ss).1 := by
  cases ss with
  | nil => exact .nil
  | cons s rest =>
    have hrest := Stmt.matches_placesAll (s.places nest).2 (s.places nest').2 rest
    exact (Stmt.matches_places nest nest' s).append (hrest.of_length (by simp [Nat.add_comm]))

end

end Lox
