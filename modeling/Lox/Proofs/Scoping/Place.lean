import Lox.Proofs.Scoping.Numbering
import Lox.Scope

/-!
The places of a program: its expressions, each with the scopes around it. Scoping walks over places
and finds for every reference there the scope that declares its name, so whatever it finds or
reports can be read off them.
-/

namespace Lox

/-- What opens a scope in a program: a block, or a function with its parameters and its body. -/
inductive Region
  | block (body : List (Stmt RefId))
  | function (parameters : List Token) (body : List (Stmt RefId))

/-- The scopes around a place, the innermost first, each with what opens it. -/
abbrev Nest := List (Region × Scope)

namespace Nest

def scopes (nest : Nest) : List Scope :=
  nest.map Prod.snd

/-- Records a name in the innermost scope, if there is one. -/
def record (name : Token) (defined : Bool) : Nest → Nest
  | [] => []
  | (region, scope) :: outer => (region, (name.lexeme, defined) :: scope) :: outer

/-- Recording a name concerns the scopes alone. -/
@[simp]
theorem scopes_record (name : Token) (defined : Bool) (nest : Nest) :
    (nest.record name defined).scopes = Scope.record name defined nest.scopes := by
  cases nest <;> rfl

end Nest

/-- An expression that is not part of another, and the scopes around it. -/
structure Place where
  nest : Nest
  expression : Expr RefId

/-- What scoping finds at one place. -/
def Place.findings (p : Place) : Findings :=
  p.expression.findings p.nest.scopes

mutual

/-- The places of a statement, and the scopes with what it declares. -/
def Stmt.places (nest : Nest) : Stmt RefId → List Place × Nest
  | .expression e => ([⟨nest, e⟩], nest)
  | .print e => ([⟨nest, e⟩], nest)
  | .var name none => ([], (nest.record name false).record name true)
  | .var name (some e) =>
    let declared := nest.record name false
    ([⟨declared, e⟩], declared.record name true)
  | .block body => ((Stmt.placesAll ((.block body, []) :: nest) body).1, nest)
  | .if condition thenBranch none =>
    let afterThen := thenBranch.places nest
    (⟨nest, condition⟩ :: afterThen.1, afterThen.2)
  | .if condition thenBranch (some elseBranch) =>
    let afterThen := thenBranch.places nest
    let afterElse := elseBranch.places afterThen.2
    (⟨nest, condition⟩ :: (afterThen.1 ++ afterElse.1), afterElse.2)
  | .while condition body =>
    let afterBody := body.places nest
    (⟨nest, condition⟩ :: afterBody.1, afterBody.2)
  | .function name parameters body =>
    let named := nest.record name true
    let scope := Scope.ofParameters parameters
    ((Stmt.placesAll ((.function parameters body, scope) :: named) body).1, named)
  | .return _ none => ([], nest)
  | .return _ (some e) => ([⟨nest, e⟩], nest)

def Stmt.placesAll (nest : Nest) : List (Stmt RefId) → List Place × Nest
  | [] => ([], nest)
  | s :: rest =>
    let afterFirst := s.places nest
    let afterRest := Stmt.placesAll afterFirst.2 rest
    (afterFirst.1 ++ afterRest.1, afterRest.2)

end

/-- The places of a whole program. -/
def placesOf (program : List (Stmt RefId)) : List Place :=
  (Stmt.placesAll [] program).1

namespace Findings

@[simp]
theorem distances_append (f g : Findings) : (f ++ g).distances = f.distances ++ g.distances := rfl

@[simp]
theorem errors_append (f g : Findings) : (f ++ g).errors = f.errors ++ g.errors := rfl

@[simp]
theorem distances_ofReturn (inFunction : Bool) (keyword : Token) :
    (ofReturn inFunction keyword).distances = [] := by
  unfold ofReturn
  split <;> rfl

end Findings

/-- A reference has an entry just if a scope declares its name. -/
theorem Scope.distances_ofReference (scopes : List Scope) (ref : RefId) (name : Token) :
    (Scope.ofReference scopes ref name).distances =
      ((Scope.distance? scopes name).map (ref, ·)).toList := by
  unfold Scope.ofReference
  cases Scope.distance? scopes name <;> rfl

/-- The innermost scope is asked first. -/
theorem Scope.distance?_cons (scope : Scope) (scopes : List Scope) (name : Token) :
    Scope.distance? (scope :: scopes) name =
      if (scope.lookup name.lexeme).isSome then some 0
      else (Scope.distance? scopes name).map (· + 1) :=
  List.findIdx?_cons

/-- The entry of a reference, if a scope declares its name. -/
def Scope.entry? (scopes : List Scope) (reference : RefId × Token) : Option (RefId × Nat) :=
  (Scope.distance? scopes reference.2).map (reference.1, ·)

mutual

/-- Scoping makes an entry for every reference to a name that a scope declares. -/
theorem Expr.distances_findings (scopes : List Scope) (e : Expr RefId) :
    (e.findings scopes).distances = e.references.filterMap (Scope.entry? scopes) := by
  cases e with
  | literal => rfl
  | grouping inner => exact Expr.distances_findings scopes inner
  | unary operator operand => exact Expr.distances_findings scopes operand
  | binary left operator right | logical left operator right =>
    simp only [Expr.findings, Expr.references, Findings.distances_append, List.filterMap_append,
      Expr.distances_findings scopes left, Expr.distances_findings scopes right]
  | var ref name =>
    simp only [Expr.findings, Expr.references, Findings.distances_append, List.nil_append,
      Scope.distances_ofReference, List.filterMap_cons, List.filterMap_nil, Scope.entry?]
    cases Scope.distance? scopes name <;> rfl
  | assign ref name value =>
    simp only [Expr.findings, Expr.references, Findings.distances_append, List.filterMap_append,
      Expr.distances_findings scopes value, Scope.distances_ofReference, List.filterMap_cons,
      List.filterMap_nil, Scope.entry?]
    cases Scope.distance? scopes name <;> rfl
  | call callee paren arguments =>
    simp only [Expr.findings, Expr.references, Findings.distances_append, List.filterMap_append,
      Expr.distances_findings scopes callee, Expr.distances_findingsAll scopes arguments]

/-- The entries are those of the references, in their order. -/
theorem Expr.distances_findingsAll (scopes : List Scope) (es : List (Expr RefId)) :
    (Expr.findingsAll scopes es).distances =
      (Expr.referencesAll es).filterMap (Scope.entry? scopes) := by
  cases es with
  | nil => rfl
  | cons e es =>
    simp only [Expr.findingsAll, Expr.referencesAll, Findings.distances_append,
      List.filterMap_append, Expr.distances_findings scopes e, Expr.distances_findingsAll scopes es]

end

/-- A walk has found the distances of these places, in order, and at least their errors. -/
structure Findings.Cover (found : Findings) (places : List Place) : Prop where
  distances : found.distances = places.flatMap fun p => p.findings.distances
  errors : ∀ p ∈ places, ∀ error ∈ p.findings.errors, error ∈ found.errors

namespace Findings.Cover

variable {f g : Findings} {ps qs : List Place}

theorem none : Findings.none.Cover [] :=
  ⟨rfl, by simp⟩

theorem single (p : Place) : p.findings.Cover [p] :=
  ⟨by simp, by simp⟩

/-- Findings of two parts cover the places of both. -/
theorem append (hf : f.Cover ps) (hg : g.Cover qs) : (f ++ g).Cover (ps ++ qs) := by
  refine ⟨by simp [hf.distances, hg.distances], ?_⟩
  intro p hp error herror
  rw [errors_append, List.mem_append]
  rcases List.mem_append.mp hp with hp | hp
  · exact .inl (hf.errors p hp error herror)
  · exact .inr (hg.errors p hp error herror)

theorem ofReturn (inFunction : Bool) (keyword : Token) :
    (Findings.ofReturn inFunction keyword).Cover [] :=
  ⟨by simp, by simp⟩

end Findings.Cover

mutual

/-- Scoping keeps to the places, and declares what they say. -/
theorem Stmt.findings_places (inFunction : Bool) (nest : Nest) (s : Stmt RefId) :
    (s.findings inFunction nest.scopes).2 = (s.places nest).2.scopes ∧
      (s.findings inFunction nest.scopes).1.Cover (s.places nest).1 := by
  cases s with
  | expression e | print e => exact ⟨rfl, .single ⟨nest, e⟩⟩
  | var name initializer =>
    cases initializer with
    | none =>
      simp only [Stmt.findings, Stmt.places, Nest.scopes_record, true_and]
      exact .none
    | some e =>
      simp only [Stmt.findings, Stmt.places, Nest.scopes_record, true_and]
      rw [← Nest.scopes_record]
      exact .single ⟨nest.record name false, e⟩
  | block body =>
    exact ⟨rfl, (Stmt.findings_placesAll inFunction ((.block body, []) :: nest) body).2⟩
  | «if» condition thenBranch elseBranch =>
    obtain ⟨hscopes, hthen⟩ := Stmt.findings_places inFunction nest thenBranch
    cases elseBranch with
    | none => exact ⟨hscopes, .append (.single ⟨nest, condition⟩) hthen⟩
    | some elseBranch =>
      obtain ⟨hscopes', helse⟩ :=
        Stmt.findings_places inFunction (thenBranch.places nest).2 elseBranch
      simp only [Stmt.findings, Stmt.places, hscopes]
      exact ⟨hscopes', .append (.single ⟨nest, condition⟩) (hthen.append helse)⟩
  | «while» condition body =>
    obtain ⟨hscopes, hbody⟩ := Stmt.findings_places inFunction nest body
    exact ⟨hscopes, .append (.single ⟨nest, condition⟩) hbody⟩
  | function name parameters body =>
    obtain ⟨-, hbody⟩ := Stmt.findings_placesAll true
      ((.function parameters body, Scope.ofParameters parameters) :: nest.record name true) body
    simp only [Stmt.findings, Stmt.places, Nest.scopes_record, true_and]
    rw [← Nest.scopes_record]
    exact hbody
  | «return» keyword value =>
    cases value with
    | none => exact ⟨rfl, .ofReturn inFunction keyword⟩
    | some e => exact ⟨rfl, .append (.ofReturn inFunction keyword) (.single ⟨nest, e⟩)⟩

/-- What scoping finds in a program covers its places. -/
theorem Stmt.findings_placesAll (inFunction : Bool) (nest : Nest) (ss : List (Stmt RefId)) :
    (Stmt.findingsAll inFunction nest.scopes ss).2 = (Stmt.placesAll nest ss).2.scopes ∧
      (Stmt.findingsAll inFunction nest.scopes ss).1.Cover (Stmt.placesAll nest ss).1 := by
  cases ss with
  | nil => exact ⟨rfl, .none⟩
  | cons s rest =>
    obtain ⟨hscopes, hfirst⟩ := Stmt.findings_places inFunction nest s
    obtain ⟨hscopes', hrest⟩ := Stmt.findings_placesAll inFunction (s.places nest).2 rest
    simp only [Stmt.findingsAll, Stmt.placesAll, hscopes]
    exact ⟨hscopes', hfirst.append hrest⟩

end

/-- An accepted program has no fault at any place. -/
theorem Place.faultless {program : List (Stmt RefId)} {p : Place}
    (h : (findingsOf program).errors = []) (hp : p ∈ placesOf program) :
    p.findings.errors = [] := by
  have hcover := (Stmt.findings_placesAll false [] program).2
  refine List.eq_nil_iff_forall_not_mem.mpr fun error herror => ?_
  have hmem : error ∈ (findingsOf program).errors := hcover.errors p hp error herror
  rw [h] at hmem
  cases hmem

mutual

/-- Every reference stands at one of the places, in order. -/
theorem Stmt.references_places (nest : Nest) (s : Stmt RefId) :
    s.references = (s.places nest).1.flatMap fun p => p.expression.references := by
  cases s with
  | expression e | print e => simp [Stmt.references, Stmt.places]
  | var name initializer => cases initializer <;> simp [Stmt.references, Stmt.places]
  | block body => exact Stmt.references_placesAll _ body
  | «if» condition thenBranch elseBranch =>
    cases elseBranch with
    | none => simp [Stmt.references, Stmt.places, Stmt.references_places nest thenBranch]
    | some elseBranch =>
      simp [Stmt.references, Stmt.places, Stmt.references_places nest thenBranch,
        Stmt.references_places (thenBranch.places nest).2 elseBranch]
  | «while» condition body =>
    simp [Stmt.references, Stmt.places, Stmt.references_places nest body]
  | function name parameters body => exact Stmt.references_placesAll _ body
  | «return» keyword value => cases value <;> simp [Stmt.references, Stmt.places]

/-- Every reference of a program stands at one of its places. -/
theorem Stmt.references_placesAll (nest : Nest) (ss : List (Stmt RefId)) :
    Stmt.referencesAll ss =
      (Stmt.placesAll nest ss).1.flatMap fun p => p.expression.references := by
  cases ss with
  | nil => rfl
  | cons s rest =>
    simp [Stmt.referencesAll, Stmt.placesAll, ← Stmt.references_places nest s,
      ← Stmt.references_placesAll (s.places nest).2 rest]

end

end Lox
