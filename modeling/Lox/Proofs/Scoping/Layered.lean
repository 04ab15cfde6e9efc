import Lox.Proofs.Scoping.Layout
import Lox.Proofs.Syntax.Alike
import Lox.Value

namespace Lox

/-- The table has the distances that scoping finds at this place. -/
def Place.Known (table : Distances) (p : Place) : Prop :=
  ∀ r ∈ p.expression.references, table[r.1]? = Scope.distance? p.nest.scopes r.2

/-- Two runs that are compared: the tables of distances, and whether statements may stand in blocks
    of their own in the second program. None of this changes while they go on. -/
structure Layered where
  first : Distances
  second : Distances
  wraps : Prop

namespace Layered

variable (P : Layered)

/-- The references lead to the same scope, or both to the globals. -/
def References (c : Layout) (r r' : RefId) : Prop :=
  Option.Rel c.Meets P.first[r]? P.second[r']?

mutual

/-- Statements that do the same, one in the first program and one in the second, where the chains
    lie like this. The Boolean tells whether the second may be wrapped in a block. A declaration
    needs a scope that both programs have. -/
inductive Statements : Bool → Layout → Stmt RefId → Stmt RefId → Prop
  | expression (h : e.Alike Eq (P.References c) e') :
      Statements b c (.expression e) (.expression e')
  | print (h : e.Alike Eq (P.References c) e') : Statements b c (.print e) (.print e')
  | declared (hc : Layout.Aligned c) : Statements b c (.var name none) (.var name none)
  | initialized (hc : Layout.Aligned c) (h : e.Alike Eq (P.References c) e') :
      Statements b c (.var name (some e)) (.var name (some e'))
  | block (h : StatementsAll (.both :: c) body body') :
      Statements b c (.block body) (.block body')
  | ifThen (hcondition : e.Alike Eq (P.References c) e') (hthen : Statements true c s s') :
      Statements b c (.if e s none) (.if e' s' none)
  | ifElse (hcondition : e.Alike Eq (P.References c) e') (hthen : Statements true c s s')
      (helse : Statements true c t t') :
      Statements b c (.if e s (some t)) (.if e' s' (some t'))
  | while (hcondition : e.Alike Eq (P.References c) e') (hbody : Statements true c s s') :
      Statements b c (.while e s) (.while e' s')
  | function (hc : Layout.Aligned c) (hbody : StatementsAll (.both :: c) body body') :
      Statements b c (.function name parameters body) (.function name parameters body')
  | finished : Statements b c (.return keyword none) (.return keyword none)
  | returned (h : e.Alike Eq (P.References c) e') :
      Statements b c (.return keyword (some e)) (.return keyword (some e'))
  | wrapped (hwraps : P.wraps) (h : Statements false (.only .second :: c) s s') :
      Statements true c s (.block [s'])

inductive StatementsAll : Layout → List (Stmt RefId) → List (Stmt RefId) → Prop
  | nil : StatementsAll c [] []
  | cons (hfirst : Statements true c s s') (hrest : StatementsAll c rest rest') :
      StatementsAll c (s :: rest) (s' :: rest')

end

variable {P}

theorem StatementsAll.forall₂ {c : Layout} {ss ss' : List (Stmt RefId)}
    (h : P.StatementsAll c ss ss') : List.Forall₂ (P.Statements true c) ss ss' := by
  induction ss generalizing ss' with
  | nil =>
    cases h
    exact .nil
  | cons s ss ih =>
    cases h with
    | cons hfirst hrest => exact .cons hfirst (ih hrest)

/-- References to the same name lead to the same scope, from places around which the scopes lie
    side by side. -/
theorem alike_of_known {c : Layout} {nest nest' : Nest} {e e' : Expr RefId}
    (h : e.Alike Eq (fun _ _ => True) e') (hspaced : c.Spaced nest.scopes nest'.scopes)
    (hknown : Place.Known P.first ⟨nest, e⟩) (hknown' : Place.Known P.second ⟨nest', e'⟩) :
    e.Alike Eq (P.References c) e' := by
  refine h.pairs.relate _ ?_
  rintro ⟨⟨r, name⟩, ⟨r', name'⟩⟩ hp
  obtain rfl : name = name' := List.forall₂_zip h.pairs.names hp
  have hmem := List.of_mem_zip hp
  rw [References, hknown _ hmem.1, hknown' _ hmem.2]
  exact hspaced.distance? name

mutual

/-- Proper statements of one shape do the same where the scopes lie side by side, and behind them
    the scopes lie so as well. -/
theorem statements_of_known {b : Bool} {c : Layout} {nest nest' : Nest} {s s' : Stmt RefId}
    (h : s.Alike Eq (fun _ _ => True) s') (hproper : s.Proper) (hc : c.Aligned ∨ s.declares = false)
    (hspaced : c.Spaced nest.scopes nest'.scopes)
    (hknown : ∀ p ∈ (s.places nest).1, p.Known P.first)
    (hknown' : ∀ p ∈ (s'.places nest').1, p.Known P.second) :
    P.Statements b c s s' ∧ c.Spaced (s.places nest).2.scopes (s'.places nest').2.scopes := by
  have hone {nest : Nest} {e : Expr RefId} {table : Distances}
      (h : ∀ p ∈ [(⟨nest, e⟩ : Place)], p.Known table) : Place.Known table ⟨nest, e⟩ :=
    h _ (List.mem_singleton_self _)
  cases h with
  | expression h =>
    exact ⟨.expression (alike_of_known h hspaced (hone hknown) (hone hknown')), hspaced⟩
  | print h => exact ⟨.print (alike_of_known h hspaced (hone hknown) (hone hknown')), hspaced⟩
  | @declared name _ hname =>
    subst hname
    have haligned := hc.resolve_right nofun
    have hdeclared := hspaced.record_nest haligned name false
    exact ⟨.declared haligned, hdeclared.record_nest haligned name true⟩
  | @initialized name _ _ _ hname h =>
    subst hname
    have haligned := hc.resolve_right nofun
    have hdeclared := hspaced.record_nest haligned name false
    have halike := alike_of_known h hdeclared (hone hknown) (hone hknown')
    exact ⟨.initialized haligned halike, hdeclared.record_nest haligned name true⟩
  | block h =>
    rw [Stmt.Proper] at hproper
    have hall := statementsAll_of_known h hproper Layout.aligned_both hspaced.both hknown hknown'
    exact ⟨.block hall.1, hspaced⟩
  | ifThen hcondition hthen =>
    obtain ⟨hknown, hknownThen⟩ := List.forall_mem_cons.mp hknown
    obtain ⟨hknown', hknownThen'⟩ := List.forall_mem_cons.mp hknown'
    obtain ⟨hthen, hspacedThen⟩ := statements_of_known hthen hproper.1 (.inr hproper.2) hspaced
      hknownThen hknownThen'
    exact ⟨.ifThen (alike_of_known hcondition hspaced hknown hknown') hthen, hspacedThen⟩
  | ifElse hcondition hthen helse =>
    obtain ⟨hknown, hknownRest⟩ := List.forall_mem_cons.mp hknown
    obtain ⟨hknown', hknownRest'⟩ := List.forall_mem_cons.mp hknown'
    obtain ⟨hknownThen, hknownElse⟩ := List.forall_mem_append.mp hknownRest
    obtain ⟨hknownThen', hknownElse'⟩ := List.forall_mem_append.mp hknownRest'
    obtain ⟨hthen, hspacedThen⟩ := statements_of_known hthen hproper.1.1 (.inr hproper.1.2) hspaced
      hknownThen hknownThen'
    obtain ⟨helse, hspacedElse⟩ := statements_of_known helse hproper.2.1 (.inr hproper.2.2)
      hspacedThen hknownElse hknownElse'
    exact ⟨.ifElse (alike_of_known hcondition hspaced hknown hknown') hthen helse, hspacedElse⟩
  | «while» hcondition hbody =>
    obtain ⟨hknown, hknownBody⟩ := List.forall_mem_cons.mp hknown
    obtain ⟨hknown', hknownBody'⟩ := List.forall_mem_cons.mp hknown'
    obtain ⟨hbody, hspacedBody⟩ := statements_of_known hbody hproper.1 (.inr hproper.2) hspaced
      hknownBody hknownBody'
    exact ⟨.while (alike_of_known hcondition hspaced hknown hknown') hbody, hspacedBody⟩
  | @function name _ parameters parameters' _ _ hname hparameters hbody =>
    subst hname
    obtain rfl : parameters = parameters' := List.forall₂_eq_eq_eq ▸ hparameters
    have haligned := hc.resolve_right nofun
    have hnamed := hspaced.record_nest haligned name true
    rw [Stmt.Proper] at hproper
    have hall := statementsAll_of_known hbody hproper Layout.aligned_both hnamed.both hknown hknown'
    exact ⟨.function haligned hall.1, hnamed⟩
  | finished hkeyword =>
    subst hkeyword
    exact ⟨.finished, hspaced⟩
  | returned hkeyword h =>
    subst hkeyword
    exact ⟨.returned (alike_of_known h hspaced (hone hknown) (hone hknown')), hspaced⟩

/-- Programs of one shape do the same where the scopes lie side by side. -/
theorem statementsAll_of_known {c : Layout} {nest nest' : Nest} {ss ss' : List (Stmt RefId)}
    (h : Stmt.AlikeAll Eq (fun _ _ => True) ss ss') (hproper : Stmt.ProperAll ss) (hc : c.Aligned)
    (hspaced : c.Spaced nest.scopes nest'.scopes)
    (hknown : ∀ p ∈ (Stmt.placesAll nest ss).1, p.Known P.first)
    (hknown' : ∀ p ∈ (Stmt.placesAll nest' ss').1, p.Known P.second) :
    P.StatementsAll c ss ss' ∧
      c.Spaced (Stmt.placesAll nest ss).2.scopes (Stmt.placesAll nest' ss').2.scopes := by
  cases h with
  | nil => exact ⟨.nil, hspaced⟩
  | cons hfirst hrest =>
    obtain ⟨hknownFirst, hknownRest⟩ := List.forall_mem_append.mp hknown
    obtain ⟨hknownFirst', hknownRest'⟩ := List.forall_mem_append.mp hknown'
    obtain ⟨hfirst, hspacedFirst⟩ := statements_of_known hfirst hproper.1 (.inl hc) hspaced
      hknownFirst hknownFirst'
    obtain ⟨hrest, hspacedRest⟩ := statementsAll_of_known hrest hproper.2 hc hspacedFirst
      hknownRest hknownRest'
    exact ⟨.cons hfirst hrest, hspacedRest⟩

end

section Alike

mutual

/-- Unless statements may be wrapped, those that do the same have one shape. -/
theorem Statements.alike (hwraps : ¬ P.wraps) {b : Bool} {c : Layout} {s s' : Stmt RefId}
    (h : P.Statements b c s s') : s.Alike Eq (fun _ _ => True) s' := by
  have hexpression {c : Layout} {e e' : Expr RefId} (h : e.Alike Eq (P.References c) e') :
      e.Alike Eq (fun _ _ => True) e' :=
    h.mono (fun _ _ => id) fun _ _ _ => trivial
  cases h with
  | expression h => exact .expression (hexpression h)
  | print h => exact .print (hexpression h)
  | declared => exact .declared rfl
  | initialized _ h => exact .initialized rfl (hexpression h)
  | block h => exact .block (StatementsAll.alike hwraps h)
  | ifThen hcondition hthen =>
    exact .ifThen (hexpression hcondition) (Statements.alike hwraps hthen)
  | ifElse hcondition hthen helse =>
    exact .ifElse (hexpression hcondition) (Statements.alike hwraps hthen)
      (Statements.alike hwraps helse)
  | «while» hcondition hbody =>
    exact .while (hexpression hcondition) (Statements.alike hwraps hbody)
  | function _ hbody =>
    exact .function rfl (List.forall₂_same.mpr fun _ _ => rfl) (StatementsAll.alike hwraps hbody)
  | finished => exact .finished rfl
  | returned h => exact .returned rfl (hexpression h)
  | wrapped h => exact absurd h hwraps

/-- Programs that do the same without blocks of their own have one shape. -/
theorem StatementsAll.alike (hwraps : ¬ P.wraps) {c : Layout} {ss ss' : List (Stmt RefId)}
    (h : P.StatementsAll c ss ss') : Stmt.AlikeAll Eq (fun _ _ => True) ss ss' := by
  cases h with
  | nil => exact .nil
  | cons hfirst hrest =>
    exact .cons (Statements.alike hwraps hfirst) (StatementsAll.alike hwraps hrest)

end

end Alike

section Same

/-! Where no level is on one chain only, a tree does the same with two tables that agree on it. -/

variable {c : Layout}

/-- An expression refers to the same variables by two tables that agree. -/
theorem alike_same (hc : c.Even) (e : Expr RefId)
    (h : ∀ r ∈ e.references, P.first[r.1]? = P.second[r.1]?) : e.Alike Eq (P.References c) e := by
  refine e.alike_self (fun _ => rfl) fun r hr => ?_
  rw [References, h r hr]
  cases P.second[r.1]? with
  | none => exact .none
  | some d => exact .some hc.meets

mutual

/-- A statement does the same by two tables that agree. -/
theorem statements_same {b : Bool} {c : Layout} (hc : c.Even) (s : Stmt RefId)
    (h : ∀ r ∈ s.references, P.first[r.1]? = P.second[r.1]?) : P.Statements b c s s := by
  cases s with
  | expression e => exact .expression (alike_same hc e h)
  | print e => exact .print (alike_same hc e h)
  | var name initializer =>
    cases initializer with
    | none => exact .declared hc.aligned
    | some e => exact .initialized hc.aligned (alike_same hc e h)
  | block body => exact .block (statementsAll_same hc.both body h)
  | «if» condition thenBranch elseBranch =>
    cases elseBranch with
    | none =>
      obtain ⟨hcondition, hthen⟩ := List.forall_mem_append.mp h
      exact .ifThen (alike_same hc condition hcondition) (statements_same hc thenBranch hthen)
    | some elseBranch =>
      obtain ⟨hcondition, hbranches⟩ := List.forall_mem_append.mp h
      obtain ⟨hthen, helse⟩ := List.forall_mem_append.mp hbranches
      exact .ifElse (alike_same hc condition hcondition) (statements_same hc thenBranch hthen)
        (statements_same hc elseBranch helse)
  | «while» condition body =>
    obtain ⟨hcondition, hbody⟩ := List.forall_mem_append.mp h
    exact .while (alike_same hc condition hcondition) (statements_same hc body hbody)
  | function name parameters body => exact .function hc.aligned (statementsAll_same hc.both body h)
  | «return» keyword value =>
    cases value with
    | none => exact .finished
    | some e => exact .returned (alike_same hc e h)

theorem statementsAll_same {c : Layout} (hc : c.Even) (ss : List (Stmt RefId))
    (h : ∀ r ∈ Stmt.referencesAll ss, P.first[r.1]? = P.second[r.1]?) :
    P.StatementsAll c ss ss := by
  cases ss with
  | nil => exact .nil
  | cons s rest =>
    obtain ⟨hfirst, hrest⟩ := List.forall_mem_append.mp h
    exact .cons (statements_same hc s hfirst) (statementsAll_same hc rest hrest)

end

end Same

end Layered

end Lox
