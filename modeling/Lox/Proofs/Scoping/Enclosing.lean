import Lox.Proofs.Scoping.Depth
import Lox.Proofs.Scoping.Layered

/-!
A block of its own for one statement. Somewhere in a program a statement that declares nothing is
put into a block that contains nothing else. Scoping reports no more than before; what it finds
outside the statement stays the same, and from inside every scope around the statement is one
further away.
-/

namespace Lox

mutual

/-- The second tree has a block around the statement `t`, at one place where the first has `t`. -/
inductive Stmt.Enclosed {ρ : Type} (t : Stmt ρ) : Stmt ρ → Stmt ρ → Prop
  | here : Enclosed t t (.block [t])
  | inBlock (h : Stmt.EnclosedAll t body body') : Enclosed t (.block body) (.block body')
  | inFunction (h : Stmt.EnclosedAll t body body') :
      Enclosed t (.function name parameters body) (.function name parameters body')
  | inThen (h : Enclosed t s s') : Enclosed t (.if condition s other) (.if condition s' other)
  | inElse (h : Enclosed t s s') :
      Enclosed t (.if condition other (some s)) (.if condition other (some s'))
  | inWhile (h : Enclosed t s s') : Enclosed t (.while condition s) (.while condition s')

inductive Stmt.EnclosedAll {ρ : Type} (t : Stmt ρ) : List (Stmt ρ) → List (Stmt ρ) → Prop
  | first (h : Stmt.Enclosed t s s') : EnclosedAll t (s :: rest) (s' :: rest)
  | rest (h : EnclosedAll t rest rest') : EnclosedAll t (s :: rest) (s :: rest')

end

variable {ρ : Type}

section Proper

variable {t : Stmt ρ}

mutual

/-- A statement inside a proper one is proper. -/
theorem Stmt.Enclosed.proper {s s' : Stmt ρ} (h : t.Enclosed s s') (hproper : s.Proper) :
    t.Proper := by
  cases h with
  | here => exact hproper
  | inBlock h | inFunction h =>
    rw [Stmt.Proper] at hproper
    exact Stmt.EnclosedAll.proper h hproper
  | @inThen _ _ condition other h =>
    cases other with
    | none => exact Stmt.Enclosed.proper h hproper.1
    | some other => exact Stmt.Enclosed.proper h hproper.1.1
  | inElse h => exact Stmt.Enclosed.proper h hproper.2.1
  | inWhile h => exact Stmt.Enclosed.proper h hproper.1

theorem Stmt.EnclosedAll.proper {ss ss' : List (Stmt ρ)} (h : Stmt.EnclosedAll t ss ss')
    (hproper : Stmt.ProperAll ss) : t.Proper := by
  cases h with
  | first h => exact Stmt.Enclosed.proper h hproper.1
  | rest h => exact Stmt.EnclosedAll.proper h hproper.2

end

end Proper

section Numbering

variable {t : Stmt ρ}

mutual

/-- The block has no references, so all others keep their identities. -/
theorem Stmt.Enclosed.number {s s' : Stmt ρ} (h : t.Enclosed s s') (next : RefId) :
    ∃ k, (t.number k).1.Enclosed (s.number next).1 (s'.number next).1 ∧
      (s'.number next).2 = (s.number next).2 := by
  cases h with
  | here => exact ⟨next, .here, rfl⟩
  | inBlock h =>
    obtain ⟨k, hbody, hnext⟩ := Stmt.EnclosedAll.number h next
    exact ⟨k, .inBlock hbody, hnext⟩
  | inFunction h =>
    obtain ⟨k, hbody, hnext⟩ := Stmt.EnclosedAll.number h next
    exact ⟨k, .inFunction hbody, hnext⟩
  | @inThen _ _ condition other h =>
    obtain ⟨k, hthen, hnext⟩ := Stmt.Enclosed.number h (condition.number next).2
    cases other with
    | none => exact ⟨k, .inThen hthen, hnext⟩
    | some other =>
      rw [Stmt.number, Stmt.number, hnext]
      exact ⟨k, .inThen hthen, rfl⟩
  | @inElse _ _ condition other h =>
    obtain ⟨k, helse, hnext⟩ :=
      Stmt.Enclosed.number h (other.number (condition.number next).2).2
    exact ⟨k, .inElse helse, hnext⟩
  | @inWhile _ _ condition h =>
    obtain ⟨k, hbody, hnext⟩ := Stmt.Enclosed.number h (condition.number next).2
    exact ⟨k, .inWhile hbody, hnext⟩

/-- With or without the block, references are numbered the same. -/
theorem Stmt.EnclosedAll.number {ss ss' : List (Stmt ρ)} (h : Stmt.EnclosedAll t ss ss')
    (next : RefId) :
    ∃ k, Stmt.EnclosedAll (t.number k).1 (Stmt.numberAll next ss).1 (Stmt.numberAll next ss').1 ∧
      (Stmt.numberAll next ss').2 = (Stmt.numberAll next ss).2 := by
  cases h with
  | first h =>
    obtain ⟨k, hfirst, hnext⟩ := Stmt.Enclosed.number h next
    rw [Stmt.numberAll, Stmt.numberAll, hnext]
    exact ⟨k, .first hfirst, rfl⟩
  | @rest _ _ s h =>
    obtain ⟨k, hrest, hnext⟩ := Stmt.EnclosedAll.number h (s.number next).2
    exact ⟨k, .rest hrest, hnext⟩

end

end Numbering

section Errors

variable {c : Layout} {scopes scopes' : List Scope}

/-- What is pending is so in a scope that both chains have. -/
theorem Layout.Spaced.isPending (h : c.Spaced scopes scopes')
    (hc : c.head? ≠ some (.only .first)) {name : Token}
    (hpending : Scope.isPending scopes' name = true) : Scope.isPending scopes name = true := by
  cases h with
  | same | both => exact hpending
  | first => exact absurd rfl hc
  | second => cases hpending

/-- A reference is never reported by itself. -/
theorem Scope.errors_ofReference (scopes : List Scope) (ref : RefId) (name : Token) :
    (Scope.ofReference scopes ref name).errors = [] := by
  unfold Scope.ofReference
  split <;> rfl

mutual

/-- Scopes without declarations hide no fault and make none. -/
theorem Expr.errors_of_spaced (h : c.Spaced scopes scopes') (hc : c.head? ≠ some (.only .first))
    (e : Expr RefId) : (e.findings scopes').errors.Sublist (e.findings scopes).errors := by
  cases e with
  | literal => exact .slnil
  | grouping inner => exact Expr.errors_of_spaced h hc inner
  | unary operator operand => exact Expr.errors_of_spaced h hc operand
  | binary left operator right | logical left operator right =>
    exact (Expr.errors_of_spaced h hc left).append (Expr.errors_of_spaced h hc right)
  | var ref name =>
    simp only [Expr.findings, Findings.errors_append, Scope.errors_ofReference, List.append_nil]
    by_cases hpending : Scope.isPending scopes' name = true
    · rw [if_pos hpending, if_pos (h.isPending hc hpending)]
    · rw [if_neg hpending]
      exact List.nil_sublist _
  | assign ref name value =>
    simp only [Expr.findings, Findings.errors_append, Scope.errors_ofReference, List.append_nil]
    exact Expr.errors_of_spaced h hc value
  | call callee paren arguments =>
    exact (Expr.errors_of_spaced h hc callee).append (Expr.errorsAll_of_spaced h hc arguments)

theorem Expr.errorsAll_of_spaced (h : c.Spaced scopes scopes')
    (hc : c.head? ≠ some (.only .first)) (es : List (Expr RefId)) :
    (Expr.findingsAll scopes' es).errors.Sublist (Expr.findingsAll scopes es).errors := by
  cases es with
  | nil => exact .slnil
  | cons e es => exact (Expr.errors_of_spaced h hc e).append (Expr.errorsAll_of_spaced h hc es)

end

mutual

/-- Behind more scopes that declare nothing, scoping reports no more errors. -/
theorem Stmt.errors_of_spaced {c : Layout} {scopes scopes' : List Scope}
    (h : c.Spaced scopes scopes') (hc : c.head? ≠ some (.only .first)) (inFunction : Bool)
    (s : Stmt RefId) (hproper : s.Proper) (hdeclares : c.Aligned ∨ s.declares = false) :
    (s.findings inFunction scopes').1.errors.Sublist (s.findings inFunction scopes).1.errors ∧
      c.Spaced (s.findings inFunction scopes).2 (s.findings inFunction scopes').2 := by
  cases s with
  | expression e | print e => exact ⟨Expr.errors_of_spaced h hc e, h⟩
  | var name initializer =>
    have haligned := hdeclares.resolve_right nofun
    have hdeclared := h.record haligned name false
    cases initializer with
    | none => exact ⟨.slnil, hdeclared.record haligned name true⟩
    | some e => exact ⟨Expr.errors_of_spaced hdeclared hc e, hdeclared.record haligned name true⟩
  | block body =>
    rw [Stmt.Proper] at hproper
    exact ⟨(Stmt.errorsAll_of_spaced (.both h) nofun inFunction body hproper
      Layout.aligned_both).1, h⟩
  | «if» condition thenBranch elseBranch =>
    have hcondition := Expr.errors_of_spaced h hc condition
    cases elseBranch with
    | none =>
      obtain ⟨hthen, hscopes⟩ := Stmt.errors_of_spaced h hc inFunction thenBranch hproper.1
        (.inr hproper.2)
      exact ⟨hcondition.append hthen, hscopes⟩
    | some elseBranch =>
      obtain ⟨hthen, hscopes⟩ := Stmt.errors_of_spaced h hc inFunction thenBranch hproper.1.1
        (.inr hproper.1.2)
      obtain ⟨helse, hscopes⟩ := Stmt.errors_of_spaced hscopes hc inFunction elseBranch hproper.2.1
        (.inr hproper.2.2)
      exact ⟨hcondition.append (hthen.append helse), hscopes⟩
  | «while» condition body =>
    obtain ⟨hbody, hscopes⟩ := Stmt.errors_of_spaced h hc inFunction body hproper.1 (.inr hproper.2)
    exact ⟨(Expr.errors_of_spaced h hc condition).append hbody, hscopes⟩
  | function name parameters body =>
    have hnamed := h.record (hdeclares.resolve_right nofun) name true
    rw [Stmt.Proper] at hproper
    exact ⟨(Stmt.errorsAll_of_spaced (.both hnamed) nofun true body hproper
      Layout.aligned_both).1, hnamed⟩
  | «return» keyword value =>
    cases value with
    | none => exact ⟨.refl _, h⟩
    | some e => exact ⟨(List.Sublist.refl _).append (Expr.errors_of_spaced h hc e), h⟩

theorem Stmt.errorsAll_of_spaced {c : Layout} {scopes scopes' : List Scope}
    (h : c.Spaced scopes scopes') (hc : c.head? ≠ some (.only .first)) (inFunction : Bool)
    (ss : List (Stmt RefId)) (hproper : Stmt.ProperAll ss) (haligned : c.Aligned) :
    (Stmt.findingsAll inFunction scopes' ss).1.errors.Sublist
        (Stmt.findingsAll inFunction scopes ss).1.errors ∧
      c.Spaced (Stmt.findingsAll inFunction scopes ss).2
        (Stmt.findingsAll inFunction scopes' ss).2 := by
  cases ss with
  | nil => exact ⟨.slnil, h⟩
  | cons s rest =>
    obtain ⟨hfirst, hscopes⟩ := Stmt.errors_of_spaced h hc inFunction s hproper.1 (.inl haligned)
    obtain ⟨hrest, hscopes⟩ :=
      Stmt.errorsAll_of_spaced hscopes hc inFunction rest hproper.2 haligned
    exact ⟨hfirst.append hrest, hscopes⟩

end

end Errors

section Findings

/-- No more errors, and the same distances but for these references. -/
structure Findings.Besides (inside : List RefId) (f f' : Findings) : Prop where
  errors : f'.errors.Sublist f.errors
  distances : ∀ entry, entry.1 ∉ inside → (entry ∈ f'.distances ↔ entry ∈ f.distances)

namespace Findings.Besides

variable {inside : List RefId} {f f' g g' : Findings}

theorem refl (f : Findings) : Besides inside f f :=
  ⟨.refl _, fun _ _ => Iff.rfl⟩

/-- What is found outside the statement is put together from both parts. -/
theorem append (h : Besides inside f f') (h' : Besides inside g g') :
    Besides inside (f ++ g) (f' ++ g') where
  errors := h.errors.append h'.errors
  distances entry hentry := by
    rw [distances_append, distances_append, List.mem_append, List.mem_append,
      h.distances entry hentry, h'.distances entry hentry]

end Findings.Besides

theorem Nest.exists_scopes_eq (scopes : List Scope) : ∃ nest : Nest, nest.scopes = scopes :=
  ⟨scopes.map fun scope => (.block [], scope), by simp [Nest.scopes, Function.comp_def]⟩

/-- Scoping makes entries for references of the statement only. -/
theorem Stmt.mem_references_of_distances {inFunction : Bool} {scopes : List Scope}
    {s : Stmt RefId} {entry : RefId × Nat}
    (h : entry ∈ (s.findings inFunction scopes).1.distances) :
    entry.1 ∈ s.references.map Prod.fst := by
  obtain ⟨nest, rfl⟩ := Nest.exists_scopes_eq scopes
  rw [(Stmt.findings_places inFunction nest s).2.distances, List.mem_flatMap] at h
  obtain ⟨p, hp, hentry⟩ := h
  rw [Place.findings, Expr.distances_findings, List.mem_filterMap] at hentry
  obtain ⟨reference, hreference, hentry⟩ := hentry
  obtain ⟨d, -, rfl⟩ := Option.map_eq_some_iff.mp hentry
  refine List.mem_map_of_mem ?_
  rw [Stmt.references_places nest s]
  exact List.mem_flatMap.mpr ⟨p, hp, hreference⟩

/-- A statement that declares nothing leaves the scopes as they were. -/
theorem Stmt.Plain.findings_snd {s : Stmt RefId} (h : s.Plain) (inFunction : Bool)
    (scopes : List Scope) : (s.findings inFunction scopes).2 = scopes := by
  obtain ⟨nest, rfl⟩ := Nest.exists_scopes_eq scopes
  rw [(Stmt.findings_places inFunction nest s).1, h.1.places_snd h.2]

variable {t : Stmt RefId}

mutual

/-- Scoping finds the same outside the statement, and reports no more than before. -/
theorem Stmt.Enclosed.findings (hdeclares : t.declares = false) {s s' : Stmt RefId}
    (h : t.Enclosed s s') (hproper : s.Proper) (inFunction : Bool) (scopes : List Scope) :
    Findings.Besides (t.references.map Prod.fst) (s.findings inFunction scopes).1
        (s'.findings inFunction scopes).1 ∧
      (s'.findings inFunction scopes).2 = (s.findings inFunction scopes).2 := by
  cases h with
  | here =>
    refine ⟨⟨?_, fun entry hentry => ?_⟩, ?_⟩
    · simp only [Stmt.findings, Stmt.findingsAll, Findings.errors_append]
      rw [Findings.none, List.append_nil]
      exact (Stmt.errors_of_spaced (.second .same) nofun inFunction t hproper (.inr hdeclares)).1
    · simp only [Stmt.findings, Stmt.findingsAll, Findings.distances_append]
      rw [Findings.none, List.append_nil]
      exact iff_of_false (fun hmem => hentry (Stmt.mem_references_of_distances hmem))
        fun hmem => hentry (Stmt.mem_references_of_distances hmem)
    · exact (Stmt.Plain.findings_snd ⟨hproper, hdeclares⟩ inFunction scopes).symm
  | inBlock h =>
    rw [Stmt.Proper] at hproper
    exact ⟨(Stmt.EnclosedAll.findings hdeclares h hproper inFunction ([] :: scopes)).1, rfl⟩
  | inFunction h =>
    rw [Stmt.Proper] at hproper
    exact ⟨(Stmt.EnclosedAll.findings hdeclares h hproper true _).1, rfl⟩
  | @inThen _ _ condition other h =>
    cases other with
    | none =>
      obtain ⟨hthen, hscopes⟩ := Stmt.Enclosed.findings hdeclares h hproper.1 inFunction scopes
      exact ⟨(Findings.Besides.refl _).append hthen, hscopes⟩
    | some other =>
      obtain ⟨hthen, hscopes⟩ := Stmt.Enclosed.findings hdeclares h hproper.1.1 inFunction scopes
      simp only [Stmt.findings, hscopes]
      exact ⟨(Findings.Besides.refl _).append (hthen.append (.refl _)), trivial⟩
  | inElse h =>
    obtain ⟨helse, hscopes⟩ := Stmt.Enclosed.findings hdeclares h hproper.2.1 inFunction _
    exact ⟨(Findings.Besides.refl _).append ((Findings.Besides.refl _).append helse), hscopes⟩
  | inWhile h =>
    obtain ⟨hbody, hscopes⟩ := Stmt.Enclosed.findings hdeclares h hproper.1 inFunction scopes
    exact ⟨(Findings.Besides.refl _).append hbody, hscopes⟩

/-- A block around the statement changes no finding outside of it, and adds no report. -/
theorem Stmt.EnclosedAll.findings (hdeclares : t.declares = false) {ss ss' : List (Stmt RefId)}
    (h : Stmt.EnclosedAll t ss ss') (hproper : Stmt.ProperAll ss) (inFunction : Bool)
    (scopes : List Scope) :
    Findings.Besides (t.references.map Prod.fst) (Stmt.findingsAll inFunction scopes ss).1
        (Stmt.findingsAll inFunction scopes ss').1 ∧
      (Stmt.findingsAll inFunction scopes ss').2 = (Stmt.findingsAll inFunction scopes ss).2 := by
  cases h with
  | first h =>
    obtain ⟨hfirst, hscopes⟩ := Stmt.Enclosed.findings hdeclares h hproper.1 inFunction scopes
    simp only [Stmt.findingsAll, hscopes]
    exact ⟨hfirst.append (.refl _), trivial⟩
  | rest h =>
    obtain ⟨hrest, hscopes⟩ := Stmt.EnclosedAll.findings hdeclares h hproper.2 inFunction _
    exact ⟨(Findings.Besides.refl _).append hrest, hscopes⟩

end

end Findings

section Places

/-- The place with more scopes around it. -/
def Place.within (outer : Nest) (p : Place) : Place :=
  ⟨p.nest ++ outer, p.expression⟩

/-- The scopes around a place are those inside the statement and those around it. -/
theorem Place.scopes_within (outer : Nest) (p : Place) :
    (p.within outer).nest.scopes = p.nest.scopes ++ outer.scopes :=
  List.map_append

/-- A declaration inside is recorded inside. -/
theorem Nest.record_append {inner : Nest} (hinner : inner ≠ []) (outer : Nest) (name : Token)
    (defined : Bool) : Nest.record name defined (inner ++ outer) =
      inner.record name defined ++ outer := by
  cases inner with
  | nil => exact absurd rfl hinner
  | cons => rfl

theorem Nest.record_ne_nil {inner : Nest} (hinner : inner ≠ []) (name : Token) (defined : Bool) :
    inner.record name defined ≠ [] := by
  rw [← List.length_pos_iff, length_record]
  exact List.length_pos_iff.mpr hinner

mutual

/-- The scopes that a statement opens do not depend on those around it, unless it declares a name
    in the innermost of those. -/
theorem Stmt.places_append (inner outer : Nest) (s : Stmt RefId) (hproper : s.Proper)
    (hdeclares : inner ≠ [] ∨ s.declares = false) :
    s.places (inner ++ outer) =
      ((s.places inner).1.map (Place.within outer), (s.places inner).2 ++ outer) := by
  cases s with
  | expression | print => rfl
  | var name initializer =>
    have hinner := hdeclares.resolve_right nofun
    have hdeclared := Nest.record_append hinner outer name false
    have hdefined := Nest.record_append (Nest.record_ne_nil hinner name false) outer name true
    cases initializer <;> simp only [Stmt.places, hdeclared, hdefined] <;> rfl
  | block body =>
    rw [Stmt.Proper] at hproper
    have hbody := Stmt.placesAll_append ((.block body, []) :: inner) outer body hproper
      (List.cons_ne_nil _ _)
    simp only [Stmt.places, ← List.cons_append, hbody]
  | «if» condition thenBranch elseBranch =>
    cases elseBranch with
    | none =>
      have hthen := Stmt.places_append inner outer thenBranch hproper.1 (.inr hproper.2)
      simp only [Stmt.places, hthen]
      rfl
    | some elseBranch =>
      have hthen := Stmt.places_append inner outer thenBranch hproper.1.1 (.inr hproper.1.2)
      have helse := Stmt.places_append (thenBranch.places inner).2 outer elseBranch hproper.2.1
        (.inr hproper.2.2)
      simp only [Stmt.places, hthen, helse, List.map_cons, List.map_append]
      rfl
  | «while» condition body =>
    have hbody := Stmt.places_append inner outer body hproper.1 (.inr hproper.2)
    simp only [Stmt.places, hbody]
    rfl
  | function name parameters body =>
    have hnamed := Nest.record_append (hdeclares.resolve_right nofun) outer name true
    rw [Stmt.Proper] at hproper
    have hbody := Stmt.placesAll_append
      ((.function parameters body, Scope.ofParameters parameters) :: inner.record name true) outer
      body hproper (List.cons_ne_nil _ _)
    simp only [Stmt.places, hnamed, ← List.cons_append, hbody]
  | «return» keyword value => cases value <;> rfl

/-- The places of statements inside do not depend on what is around. -/
theorem Stmt.placesAll_append (inner outer : Nest) (ss : List (Stmt RefId))
    (hproper : Stmt.ProperAll ss) (hinner : inner ≠ []) :
    Stmt.placesAll (inner ++ outer) ss =
      ((Stmt.placesAll inner ss).1.map (Place.within outer),
        (Stmt.placesAll inner ss).2 ++ outer) := by
  cases ss with
  | nil => rfl
  | cons s rest =>
    have hbehind : (s.places inner).2 ≠ [] := by
      rw [← List.length_pos_iff, Stmt.length_places]
      exact List.length_pos_iff.mpr hinner
    have hfirst := Stmt.places_append inner outer s hproper.1 (.inl hinner)
    have hrest := Stmt.placesAll_append (s.places inner).2 outer rest hproper.2 hbehind
    simp only [Stmt.placesAll, hfirst, hrest, List.map_append]

end

/-- A statement declares the same where the scopes are the same. -/
theorem Stmt.scopes_places {nest nest' : Nest} (h : nest'.scopes = nest.scopes) (s : Stmt RefId) :
    (s.places nest').2.scopes = (s.places nest).2.scopes := by
  rw [← (Stmt.findings_places false nest' s).1, ← (Stmt.findings_places false nest s).1, h]

variable {t : Stmt RefId}

/-- The statement stands at some place in the first tree, and in the second at the same one but in
    a block. -/
def Stmt.Deepened (t : Stmt RefId) (ps ps' : List Place) : Prop :=
  ∃ outer outer' : Nest, outer'.scopes = outer.scopes ∧ (t.places outer).1 ⊆ ps ∧
    (t.places ((.block [t], []) :: outer')).1 ⊆ ps'

/-- It is enough to know it of some of the places. -/
theorem Stmt.Deepened.mono {ps ps' qs qs' : List Place} (h : Stmt.Deepened t ps ps') (hps : ps ⊆ qs)
    (hps' : ps' ⊆ qs') : Stmt.Deepened t qs qs' := by
  obtain ⟨outer, outer', hscopes, houter, houter'⟩ := h
  exact ⟨outer, outer', hscopes, List.Subset.trans houter hps, List.Subset.trans houter' hps'⟩

mutual

/-- From inside the statement there is one more scope around, and outside nothing has changed. -/
theorem Stmt.Enclosed.places {s s' : Stmt RefId} (h : t.Enclosed s s') {nest nest' : Nest}
    (hscopes : nest'.scopes = nest.scopes) :
    Stmt.Deepened t (s.places nest).1 (s'.places nest').1 := by
  cases h with
  | here => exact ⟨nest, nest', hscopes, List.Subset.refl _, List.subset_append_left _ _⟩
  | inBlock h => exact Stmt.EnclosedAll.places h (congrArg ([] :: ·) hscopes)
  | @inFunction _ _ name parameters h =>
    refine Stmt.EnclosedAll.places h (congrArg (Scope.ofParameters parameters :: ·) ?_)
    exact (Nest.scopes_record ..).trans
      ((congrArg _ hscopes).trans (Nest.scopes_record ..).symm)
  | @inThen _ _ condition other h =>
    cases other with
    | none =>
      exact (Stmt.Enclosed.places h hscopes).mono (List.subset_cons_self _ _)
        (List.subset_cons_self _ _)
    | some other =>
      refine (Stmt.Enclosed.places h hscopes).mono ?_ ?_
      · exact List.subset_cons_of_subset _ (List.subset_append_left _ _)
      · exact List.subset_cons_of_subset _ (List.subset_append_left _ _)
  | @inElse _ _ condition other h =>
    refine (Stmt.Enclosed.places h (Stmt.scopes_places hscopes other)).mono ?_ ?_
    · exact List.subset_cons_of_subset _ (List.subset_append_right _ _)
    · exact List.subset_cons_of_subset _ (List.subset_append_right _ _)
  | inWhile h =>
    exact (Stmt.Enclosed.places h hscopes).mono (List.subset_cons_self _ _)
      (List.subset_cons_self _ _)

theorem Stmt.EnclosedAll.places {ss ss' : List (Stmt RefId)} (h : Stmt.EnclosedAll t ss ss')
    {nest nest' : Nest} (hscopes : nest'.scopes = nest.scopes) :
    Stmt.Deepened t (Stmt.placesAll nest ss).1 (Stmt.placesAll nest' ss').1 := by
  cases h with
  | first h =>
    exact (Stmt.Enclosed.places h hscopes).mono (List.subset_append_left _ _)
      (List.subset_append_left _ _)
  | @rest _ _ s h =>
    exact (Stmt.EnclosedAll.places h (Stmt.scopes_places hscopes s)).mono
      (List.subset_append_right _ _) (List.subset_append_right _ _)

end

/-- Beyond a scope that declares nothing, every other scope is one further away. -/
theorem Scope.distance?_append (inner outer : List Scope) (name : Token) :
    Scope.distance? (inner ++ [] :: outer) name =
      (Scope.distance? (inner ++ outer) name).map fun d =>
        if inner.length ≤ d then d + 1 else d := by
  induction inner with
  | nil => rw [List.nil_append, Scope.distance?_cons]; simp
  | cons scope inner ih =>
    rw [List.cons_append, List.cons_append, Scope.distance?_cons, Scope.distance?_cons, ih]
    split
    · simp
    · simp only [Option.map_map, Function.comp_def, List.length_cons]
      congr 1
      funext d
      split <;> split <;> omega

end Places

section Statements

variable {P : Layered} {t : Stmt RefId}

/-- A statement does the same where empty scopes lie around it, with the distances found there. -/
theorem Layered.statements_self {b : Bool} {c : Layout} {nest nest' : Nest} {s : Stmt RefId}
    (hproper : s.Proper) (hc : c.Aligned ∨ s.declares = false)
    (hspaced : c.Spaced nest.scopes nest'.scopes)
    (hknown : ∀ p ∈ (s.places nest).1, p.Known P.first)
    (hknown' : ∀ p ∈ (s.places nest').1, p.Known P.second) :
    P.Statements b c s s ∧ c.Spaced (s.places nest).2.scopes (s.places nest').2.scopes :=
  statements_of_known (s.alike_self (fun _ => rfl) fun _ _ => trivial) hproper hc hspaced hknown
    hknown'

/-- Its expressions refer to the same variables. -/
theorem Layered.alike_self {c : Layout} {nest nest' : Nest} {e : Expr RefId}
    (hspaced : c.Spaced nest.scopes nest'.scopes) (hknown : Place.Known P.first ⟨nest, e⟩)
    (hknown' : Place.Known P.second ⟨nest', e⟩) : e.Alike Eq (P.References c) e :=
  alike_of_known (e.alike_self (fun _ => rfl) fun _ _ => trivial) hspaced hknown hknown'

mutual

/-- The tree with the block does what the tree without it does. -/
theorem Stmt.Enclosed.statements (hwraps : P.wraps) (hdeclares : t.declares = false)
    {s s' : Stmt RefId} (h : t.Enclosed s s') (hproper : s.Proper) {c : Layout} (hc : c.Aligned)
    {nest nest' : Nest} (hspaced : c.Spaced nest.scopes nest'.scopes)
    (hknown : ∀ p ∈ (s.places nest).1, p.Known P.first)
    (hknown' : ∀ p ∈ (s'.places nest').1, p.Known P.second) :
    P.Statements true c s s' ∧ c.Spaced (s.places nest).2.scopes (s'.places nest').2.scopes := by
  cases h with
  | here =>
    have hinside := (List.forall_mem_append.mp hknown').1
    refine ⟨.wrapped hwraps (Layered.statements_self hproper (.inr hdeclares) hspaced.second hknown
      hinside).1, ?_⟩
    rw [hproper.places_snd hdeclares]
    exact hspaced
  | inBlock h =>
    rw [Stmt.Proper] at hproper
    have hbody := Stmt.EnclosedAll.statements hwraps hdeclares h hproper Layout.aligned_both
      hspaced.both hknown hknown'
    exact ⟨.block hbody, hspaced⟩
  | @inFunction _ _ name parameters h =>
    have hnamed := hspaced.record_nest hc name true
    rw [Stmt.Proper] at hproper
    have hbody := Stmt.EnclosedAll.statements hwraps hdeclares h hproper Layout.aligned_both
      hnamed.both hknown hknown'
    exact ⟨.function hc hbody, hnamed⟩
  | @inThen _ _ condition other h =>
    cases other with
    | none =>
      obtain ⟨hknown, hknownThen⟩ := List.forall_mem_cons.mp hknown
      obtain ⟨hknown', hknownThen'⟩ := List.forall_mem_cons.mp hknown'
      obtain ⟨hthen, hspacedThen⟩ := Stmt.Enclosed.statements hwraps hdeclares h hproper.1 hc
        hspaced hknownThen hknownThen'
      exact ⟨.ifThen (Layered.alike_self hspaced hknown hknown') hthen, hspacedThen⟩
    | some other =>
      obtain ⟨hknown, hknownRest⟩ := List.forall_mem_cons.mp hknown
      obtain ⟨hknown', hknownRest'⟩ := List.forall_mem_cons.mp hknown'
      obtain ⟨hknownThen, hknownElse⟩ := List.forall_mem_append.mp hknownRest
      obtain ⟨hknownThen', hknownElse'⟩ := List.forall_mem_append.mp hknownRest'
      obtain ⟨hthen, hspacedThen⟩ := Stmt.Enclosed.statements hwraps hdeclares h hproper.1.1 hc
        hspaced hknownThen hknownThen'
      obtain ⟨helse, hspacedElse⟩ := Layered.statements_self hproper.2.1 (.inl hc) hspacedThen
        hknownElse hknownElse'
      exact ⟨.ifElse (Layered.alike_self hspaced hknown hknown') hthen helse, hspacedElse⟩
  | inElse h =>
    obtain ⟨hknown, hknownRest⟩ := List.forall_mem_cons.mp hknown
    obtain ⟨hknown', hknownRest'⟩ := List.forall_mem_cons.mp hknown'
    obtain ⟨hknownThen, hknownElse⟩ := List.forall_mem_append.mp hknownRest
    obtain ⟨hknownThen', hknownElse'⟩ := List.forall_mem_append.mp hknownRest'
    obtain ⟨hthen, hspacedThen⟩ := Layered.statements_self hproper.1.1 (.inl hc) hspaced
      hknownThen hknownThen'
    obtain ⟨helse, hspacedElse⟩ := Stmt.Enclosed.statements hwraps hdeclares h hproper.2.1 hc
      hspacedThen hknownElse hknownElse'
    exact ⟨.ifElse (Layered.alike_self hspaced hknown hknown') hthen helse, hspacedElse⟩
  | inWhile h =>
    obtain ⟨hknown, hknownBody⟩ := List.forall_mem_cons.mp hknown
    obtain ⟨hknown', hknownBody'⟩ := List.forall_mem_cons.mp hknown'
    obtain ⟨hbody, hspacedBody⟩ := Stmt.Enclosed.statements hwraps hdeclares h hproper.1 hc
      hspaced hknownBody hknownBody'
    exact ⟨.while (Layered.alike_self hspaced hknown hknown') hbody, hspacedBody⟩

/-- With the block, the program does the same. -/
theorem Stmt.EnclosedAll.statements (hwraps : P.wraps) (hdeclares : t.declares = false)
    {ss ss' : List (Stmt RefId)} (h : Stmt.EnclosedAll t ss ss') (hproper : Stmt.ProperAll ss)
    {c : Layout} (hc : c.Aligned) {nest nest' : Nest}
    (hspaced : c.Spaced nest.scopes nest'.scopes)
    (hknown : ∀ p ∈ (Stmt.placesAll nest ss).1, p.Known P.first)
    (hknown' : ∀ p ∈ (Stmt.placesAll nest' ss').1, p.Known P.second) :
    P.StatementsAll c ss ss' := by
  cases h with
  | @first _ _ rest h =>
    obtain ⟨hknownFirst, hknownRest⟩ := List.forall_mem_append.mp hknown
    obtain ⟨hknownFirst', hknownRest'⟩ := List.forall_mem_append.mp hknown'
    obtain ⟨hfirst, hspacedFirst⟩ := Stmt.Enclosed.statements hwraps hdeclares h hproper.1 hc
      hspaced hknownFirst hknownFirst'
    refine .cons hfirst (Layered.statementsAll_of_known ?_ hproper.2 hc hspacedFirst hknownRest
      hknownRest').1
    exact Stmt.alikeAll_self (fun _ => rfl) rest fun _ _ => trivial
  | rest h =>
    obtain ⟨hknownFirst, hknownRest⟩ := List.forall_mem_append.mp hknown
    obtain ⟨hknownFirst', hknownRest'⟩ := List.forall_mem_append.mp hknown'
    obtain ⟨hfirst, hspacedFirst⟩ := Layered.statements_self hproper.1 (.inl hc) hspaced
      hknownFirst hknownFirst'
    exact .cons hfirst (Stmt.EnclosedAll.statements hwraps hdeclares h hproper.2 hc hspacedFirst
      hknownRest hknownRest')

end

end Statements

end Lox
