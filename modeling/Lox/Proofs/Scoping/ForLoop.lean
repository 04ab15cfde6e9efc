import Lox.Proofs.Grammar.Partial
import Lox.Proofs.Scoping.Layered
import Lox.Proofs.Scoping.Table

/-!
Loops with clauses. A `for` statement is read as a block around a loop whose body is a block as
well, each only where a clause needs it. Here the clauses are kept apart, and stand in one scope
that encloses the whole loop.
-/

namespace Lox

variable {ρ σ : Type}

/-- A first clause of a `for` statement: a variable or an expression. -/
def Stmt.initializes : Stmt ρ → Bool
  | .var _ _ | .expression _ => true
  | _ => false

/-- The parts of a `for` statement. -/
structure ForLoop (ρ : Type) where
  initializer : Option (Stmt ρ)
  condition : Option (Expr ρ)
  increment : Option (Expr ρ)
  body : Stmt ρ
  initializes : ∀ s ∈ initializer, s.initializes = true
  plain : body.Plain

theorem Stmt.proper_of_initializes {s : Stmt ρ} (h : s.initializes = true) : s.Proper := by
  cases s with
  | expression | var => trivial
  | _ => cases h

namespace ForLoop

/-- What the tree has for a body: the increment stands behind the body, in a block with it. -/
def turn (l : ForLoop ρ) : Stmt ρ :=
  match l.increment with
  | some e => .block [l.body, .expression e]
  | none => l.body

/-- The condition of the tree, which is never absent. -/
def test (l : ForLoop ρ) : Expr ρ :=
  l.condition.getD (.literal (.bool true))

/-- The tree of the statement. -/
def tree (l : ForLoop ρ) : Stmt ρ :=
  match l.initializer with
  | some first => .block [first, .while l.test l.turn]
  | none => .while l.test l.turn

/-- The tree of a loop is the one that the grammar builds from its clauses. -/
theorem tree_eq_forLoop (l : ForLoop Unit) :
    l.tree = Grammar.forLoop l.initializer l.condition l.increment l.body := by
  obtain ⟨initializer, condition, increment, body, -, -⟩ := l
  cases initializer <;> cases increment <;> rfl

/-- What runs again and again, in the order in which it does so first. -/
def repeated (l : ForLoop ρ) : List (Stmt ρ) :=
  (l.condition.map .expression).toList ++ l.body :: (l.increment.map .expression).toList

/-- What stands in the scope of the loop. -/
def clauses (l : ForLoop ρ) : List (Stmt ρ) :=
  l.initializer.toList ++ l.repeated

end ForLoop

/-- Every `for` statement of the grammar has such parts. -/
theorem Grammar.exists_forLoop {nearest dangling : Bool} {ts us : List Token}
    {initializer : Option (Stmt Unit)} {body : Stmt Unit}
    (hfirst : DerivesInitializer ts initializer)
    (hbody : Category.statement.Derives nearest us body dangling)
    (condition increment : Option (Expr Unit)) :
    ∃ l : ForLoop Unit, (l.initializer, l.condition, l.increment, l.body) =
        (initializer, condition, increment, body) ∧
      l.tree = forLoop initializer condition increment body := by
  have hinitializes : ∀ s ∈ initializer, s.initializes = true := by
    cases hfirst with
    | absent => nofun
    | «variable» _ h =>
      rintro s ⟨⟩
      cases h <;> rfl
    | expression =>
      rintro s ⟨⟩
      rfl
  have hplain : body.Plain := ⟨hbody.proper.1, hbody.proper.2 rfl⟩
  exact ⟨⟨initializer, condition, increment, body, hinitializes, hplain⟩, rfl,
    ForLoop.tree_eq_forLoop _⟩

section Numbering

/-- Numbers a part that may be absent. -/
def numberPart (number : RefId → ρ → σ × RefId) (next : RefId) : Option ρ → Option σ × RefId
  | none => (none, next)
  | some part => (some (number next part).1, (number next part).2)

theorem Stmt.initializes_number (next : RefId) (s : Stmt ρ) :
    (s.number next).1.initializes = s.initializes := by
  cases s with
  | var name initializer => cases initializer <;> rfl
  | «if» condition thenBranch elseBranch => cases elseBranch <;> rfl
  | «return» keyword value => cases value <;> rfl
  | _ => rfl

theorem initializes_numberPart {next : RefId} {initializer : Option (Stmt ρ)}
    (h : ∀ s ∈ initializer, s.initializes = true) :
    ∀ s ∈ (numberPart Stmt.number next initializer).1, s.initializes = true := by
  cases initializer with
  | none => nofun
  | some first =>
    rintro s ⟨⟩
    exact (Stmt.initializes_number next first).trans (h first rfl)

namespace ForLoop

/-- Numbers the references of all parts, in the order of the tree. -/
def number (next : RefId) (l : ForLoop ρ) : ForLoop RefId × RefId :=
  let initializer := numberPart Stmt.number next l.initializer
  let condition := numberPart Expr.number initializer.2 l.condition
  let body := l.body.number condition.2
  let increment := numberPart Expr.number body.2 l.increment
  ({ initializer := initializer.1
     condition := condition.1
     increment := increment.1
     body := body.1
     initializes := initializes_numberPart l.initializes
     plain := ⟨l.plain.1.number _, (Stmt.declares_number _ _).trans l.plain.2⟩ }, increment.2)

/-- Numbering the tree of a loop numbers its clauses in the order in which they are written. -/
theorem number_tree (next : RefId) (l : ForLoop ρ) :
    l.tree.number next = ((l.number next).1.tree, (l.number next).2) := by
  obtain ⟨initializer, condition, increment, body, -, -⟩ := l
  cases initializer <;> cases condition <;> cases increment <;> rfl

/-- Numbering the clauses as a list of statements draws the same identities. -/
theorem numberAll_clauses (next : RefId) (l : ForLoop ρ) :
    Stmt.numberAll next l.clauses = ((l.number next).1.clauses, (l.number next).2) := by
  obtain ⟨initializer, condition, increment, body, -, -⟩ := l
  cases initializer <;> cases condition <;> cases increment <;> rfl

/-- Loops of one shape. -/
structure Alike (l l' : ForLoop RefId) : Prop where
  initializer : Option.Rel (Stmt.Alike Eq fun _ _ => True) l.initializer l'.initializer
  condition : Option.Rel (Expr.Alike Eq fun _ _ => True) l.condition l'.condition
  increment : Option.Rel (Expr.Alike Eq fun _ _ => True) l.increment l'.increment
  body : l.body.Alike Eq (fun _ _ => True) l'.body

/-- Two numberings of one expression are alike but for the identities. -/
theorem expr_alike_number (n n' : RefId) (e : Expr ρ) :
    (e.number n).1.Alike Eq (fun _ _ => True) (e.number n').1 :=
  ((e.alike_self (fun _ => rfl) fun _ _ => trivial).number (S := fun _ _ => True)
    (fun _ _ => trivial) le_rfl).1

/-- Two numberings of one statement are alike but for the identities. -/
theorem stmt_alike_number (n n' : RefId) (s : Stmt ρ) :
    (s.number n).1.Alike Eq (fun _ _ => True) (s.number n').1 :=
  ((s.alike_self (fun _ => rfl) fun _ _ => trivial).number (S := fun _ _ => True)
    (fun _ _ => trivial) le_rfl).1

/-- However a loop is numbered, it is the same but for identities. -/
theorem alike_number (n n' : RefId) (l : ForLoop ρ) : (l.number n).1.Alike (l.number n').1 := by
  have hpart {α β : Type} {number : RefId → α → β × RefId} {R : β → β → Prop}
      (h : ∀ n n' a, R (number n a).1 (number n' a).1) (n n' : RefId) (part : Option α) :
      Option.Rel R (numberPart number n part).1 (numberPart number n' part).1 := by
    cases part with
    | none => exact .none
    | some a => exact .some (h n n' a)
  exact ⟨hpart stmt_alike_number _ _ _, hpart expr_alike_number _ _ _,
    hpart expr_alike_number _ _ _, stmt_alike_number _ _ _⟩

end ForLoop

end Numbering

namespace ForLoop

variable {P : Layered} {c : Layout} {l l' : ForLoop RefId} {nest nest' : Nest}

/-- What runs again and again does the same, kept apart in the first program and in the tree of the
    second. There an increment stands in a block with the body. -/
structure Repeats (P : Layered) (c : Layout) (l l' : ForLoop RefId) : Prop where
  condition : Option.Rel (Expr.Alike Eq (P.References c)) l.condition l'.condition
  turn : (l.increment = none ∧ l'.increment = none ∧ P.Statements true c l.body l'.body) ∨
    ∃ e e', l.increment = some e ∧ l'.increment = some e' ∧
      P.Statements true (.only .second :: c) l.body l'.body ∧
      e.Alike Eq (P.References (.only .second :: c)) e'

/-- The places of what is repeated are those of the condition, the body and the increment, in this
    order. -/
theorem places_repeated (l : ForLoop RefId) (nest : Nest) :
    (Stmt.placesAll nest l.repeated).1 =
      (l.condition.map (Place.mk nest)).toList ++
        ((l.body.places nest).1 ++ (l.increment.map (Place.mk nest)).toList) := by
  obtain ⟨initializer, condition, increment, body, -, hplain⟩ := l
  cases condition <;> cases increment <;>
    simp [repeated, Stmt.placesAll, Stmt.places, hplain.1.places_snd hplain.2]

/-- With an increment, the places of a turn lie one scope deeper. -/
theorem places_turn_of_some {l : ForLoop RefId} {e : Expr RefId} (h : l.increment = some e)
    (nest : Nest) : (l.turn.places nest).1 =
      (l.body.places ((.block [l.body, .expression e], []) :: nest)).1 ++
        [⟨(.block [l.body, .expression e], []) :: nest, e⟩] := by
  rw [turn, h]
  simp [Stmt.placesAll, Stmt.places, l.plain.1.places_snd l.plain.2]

/-- Scoping leads them to the same scopes. -/
theorem Alike.repeats (halike : l.Alike l') (hspaced : c.Spaced nest.scopes nest'.scopes)
    (hknown : ∀ p ∈ (Stmt.placesAll nest l.repeated).1, p.Known P.first)
    (hknown' : ∀ p ∈ ((Stmt.while l'.test l'.turn).places nest').1, p.Known P.second) :
    Repeats P c l l' := by
  rw [places_repeated, List.forall_mem_append, List.forall_mem_append] at hknown
  obtain ⟨hcondition, hbody, hincrement⟩ := hknown
  obtain ⟨hcondition', hturn'⟩ := List.forall_mem_cons.mp hknown'
  change ∀ p ∈ (l'.turn.places nest').1, p.Known P.second at hturn'
  refine ⟨?_, ?_⟩
  · have hrel := halike.condition
    rw [test] at hcondition'
    generalize l.condition = condition at hcondition hrel ⊢
    generalize l'.condition = condition' at hcondition' hrel ⊢
    cases hrel with
    | none => exact .none
    | some h =>
      exact .some (Layered.alike_of_known h hspaced (hcondition _ (List.mem_singleton_self _))
        hcondition')
  · have hrel := halike.increment
    generalize hfirst : l.increment = increment at hrel hincrement ⊢
    generalize hsecond : l'.increment = increment' at hrel ⊢
    cases hrel with
    | none =>
      rw [turn, hsecond] at hturn'
      exact .inl ⟨rfl, rfl, (Layered.statements_of_known halike.body l.plain.1
        (.inr l.plain.2) hspaced hbody hturn').1⟩
    | @some e e' h =>
      have hincrement := hincrement _ (List.mem_singleton_self _)
      -- The block in the tree is one more scope around the body and around the increment.
      rw [places_turn_of_some hsecond, List.forall_mem_append] at hturn'
      obtain ⟨hbody', hincrement'⟩ := hturn'
      have hinside := hspaced.second
      refine .inr ⟨e, e', rfl, rfl, ?_, ?_⟩
      · exact (Layered.statements_of_known halike.body l.plain.1 (.inr l.plain.2) hinside hbody
          hbody').1
      · exact Layered.alike_of_known h hinside hincrement
          (hincrement' _ (List.mem_singleton_self _))

/-- The loops do the same. The tree has a scope for the loop only if there is an initializer. -/
inductive Corresponds (P : Layered) (c : Layout) (l l' : ForLoop RefId) : Prop
  | bare (hfirst : l.initializer = none) (hsecond : l'.initializer = none)
      (h : Repeats P (.only .first :: c) l l')
  | enclosed {first first' : Stmt RefId} (hfirst : l.initializer = some first)
      (hsecond : l'.initializer = some first')
      (hinitializer : P.Statements true (.both :: c) first first')
      (h : Repeats P (.both :: c) l l')

/-- With an initializer, the whole loop lies in a scope that is opened for it. -/
theorem places_tree_of_some {first : Stmt RefId} (h : l.initializer = some first) (nest : Nest) :
    let inner := (Region.block [first, .while l.test l.turn], []) :: nest
    (l.tree.places nest).1 =
      (first.places inner).1 ++ ((Stmt.while l.test l.turn).places (first.places inner).2).1 := by
  rw [tree, h]
  simp [Stmt.placesAll, Stmt.places]

/-- Loops of one shape do the same where the scopes lie side by side, one with the distances of its
    clauses in a scope of their own, the other with those of its tree. -/
theorem Alike.corresponds (halike : l.Alike l') (hspaced : c.Spaced nest.scopes nest'.scopes)
    (hknown : ∀ p ∈ ((Stmt.block l.clauses).places nest).1, p.Known P.first)
    (hknown' : ∀ p ∈ (l'.tree.places nest').1, p.Known P.second) : Corresponds P c l l' := by
  change ∀ p ∈ (Stmt.placesAll ((.block l.clauses, []) :: nest) l.clauses).1, _ at hknown
  have hrel := halike.initializer
  generalize hfirst : l.initializer = initializer at hrel
  generalize hsecond : l'.initializer = initializer' at hrel
  cases hrel with
  | none =>
    have hbare : Layout.Spaced (.only .first :: c)
        (Nest.scopes ((.block l.clauses, []) :: nest)) nest'.scopes := hspaced.first
    rw [tree, hsecond] at hknown'
    refine .bare hfirst hsecond (halike.repeats hbare ?_ hknown')
    have hclauses : l.clauses = l.repeated := by rw [clauses, hfirst, Option.toList_none,
      List.nil_append]
    rwa [hclauses] at hknown ⊢
  | @some first first' hinitializer =>
    have hproper := Stmt.proper_of_initializes (l.initializes first hfirst)
    have hclauses : l.clauses = first :: l.repeated := by rw [clauses, hfirst, Option.toList_some,
      List.singleton_append]
    rw [hclauses] at hknown
    obtain ⟨hknownFirst, hknownRest⟩ := List.forall_mem_append.mp hknown
    rw [places_tree_of_some hsecond] at hknown'
    obtain ⟨hknownFirst', hknownRest'⟩ := List.forall_mem_append.mp hknown'
    have henclosed : Layout.Spaced (.both :: c)
        (Nest.scopes ((.block (first :: l.repeated), []) :: nest))
        (Nest.scopes ((.block [first', .while l'.test l'.turn], []) :: nest')) := hspaced.both
    obtain ⟨hstatements, hbehind⟩ := Layered.statements_of_known hinitializer hproper
      (.inl Layout.aligned_both) henclosed hknownFirst hknownFirst'
    exact .enclosed hfirst hsecond hstatements (halike.repeats hbehind hknownRest hknownRest')

end ForLoop

end Lox
