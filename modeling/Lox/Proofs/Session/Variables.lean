import Mathlib
import Lox.Proofs.Session.History

namespace Lox.Session

variable {runs : List Run} {n : Nat} {ref : RefId} {name : Token} {e : Expr RefId} {m m' : Machine}
  {value : Value} {d : Nat}

/-- What is known of a reference: the source that it stands in, and its place there. -/
structure Occurs (runs : List Run) (ref : RefId) (name : Token) (a : Analysis) (place : Place) :
    Prop where
  accepted : Accepted runs a
  mem_places : place ∈ placesOf a.program
  mem_references : (ref, name) ∈ place.expression.references

/-- A reference has the distance of its place among the findings of its source. -/
theorem Occurs.mem_distances_iff {a : Analysis} {place : Place}
    (h : Occurs runs ref name a place) :
    (ref, d) ∈ a.findings.distances ↔ Scope.distance? place.nest.scopes name = some d := by
  obtain ⟨⟨r, runs', s, -, -, rfl, -⟩, hplace, href⟩ := h
  rw [program_analysis] at hplace
  rw [findings_analysis]
  exact Lox.mem_distances_iff hplace href

/-- A machine that agrees with the scopes holds just this distance. -/
theorem Occurs.getElem?_distances {a : Analysis} {place : Place}
    (h : Occurs runs ref name a place) (hm : (survey runs).Consistent m) :
    m.distances[ref]? = Scope.distance? place.nest.scopes name :=
  hm.distances place ⟨a, h.accepted, h.mem_places⟩ _ h.mem_references

/-- Every reference of a visited point stands at a place of an accepted source. -/
theorem exists_occurs {nest : Nest} {found : Findings} {references : List (RefId × Token)}
    (h : (survey runs).Within nest m found references) (href : (ref, name) ∈ references) :
    ∃ a place, Occurs runs ref name a place ∧ place.nest = nest := by
  obtain ⟨whole, ⟨a, haccepted, hplace⟩, hreferences⟩ := h.place
  exact ⟨a, ⟨nest, whole⟩, ⟨haccepted, hplace, hreferences href⟩, rfl⟩

/-- A variable that is read has one of two kinds of places. Either a scope around it declares its
    name. Then as many links up as scoping says there is the frame that was made when the region of
    that scope was entered, never the global one, and it binds the name, so the read succeeds there.
    Or no scope around it declares its name, there is no entry for it, and the globals alone are
    asked. A region contains the references inside it, and no other reference of the session has
    their identities, so no two regions around a reference are alike. -/
theorem evaluate_var_agrees (h : Visits runs ⟨n + 1, .evaluate (.var ref name), m⟩) :
    ∃ a place, Occurs runs ref name a place ∧
      match m.distances[ref]? with
      | some d =>
        (ref, d) ∈ a.findings.distances ∧ ∃ region scope frame value,
          place.nest.Declares name.lexeme d region scope ∧
          m.store.frameAbove? m.environment d = some frame ∧ frame ≠ m.globals ∧
          (survey runs).Made region frame ∧ m.store.binds frame name.lexeme ∧
          m.store.getAt? m.environment d name.lexeme = some value ∧
          evaluate (n + 1) (.var ref name) m = .ok value m
      | none =>
        (∀ d, (ref, d) ∉ a.findings.distances) ∧
          (∀ r ∈ place.nest, r.2.lookup name.lexeme = none) ∧
          evaluate (n + 1) (.var ref name) m =
            Step.reading name (m.store.read? m.globals name.lexeme) m := by
  obtain ⟨nest, -, hconsistent, hwithin⟩ := h.ready
  obtain ⟨a, place, hoccurs, rfl⟩ := exists_occurs hwithin (List.mem_singleton_self (ref, name))
  have hdistance := hoccurs.getElem?_distances hconsistent
  have hevaluate : evaluate (n + 1) (.var ref name) m = Step.lookUp ref name m := rfl
  refine ⟨a, place, hoccurs, ?_⟩
  cases hentry : m.distances[ref]? with
  | none =>
    rw [hentry] at hdistance
    refine ⟨fun d => ?_, Nest.distance?_eq_none_iff.mp hdistance.symm, ?_⟩
    · rw [hoccurs.mem_distances_iff, ← hdistance]
      simp
    · rw [hevaluate, Step.lookUp_of_none hentry,
        Store.get?_of_root hconsistent.parent?_globals hconsistent.globals_lt]
  | some d =>
    rw [hentry] at hdistance
    obtain ⟨region, scope, hdeclares⟩ := Nest.distance?_eq_some_iff.mp hdistance.symm
    obtain ⟨frame, hframe, hglobals, hmade, hbinds⟩ :=
      hwithin.stands.resolve hconsistent hwithin.settled hdeclares
    have hdefined := Survey.mem_of_not_pending hwithin.settled hwithin.isPending_eq_false hdeclares
    have hbound := hbinds.mpr hdefined
    obtain ⟨value, hvalue⟩ := Store.binds_iff.mp hbound
    have hfound : m.store.getAt? m.environment d name.lexeme = some value := by
      rw [Store.getAt?, hframe]
      exact hvalue
    refine ⟨hoccurs.mem_distances_iff.mpr hdistance.symm, region, scope, frame, value, hdeclares,
      hframe, hglobals, hmade, hbound, hfound, ?_⟩
    rw [hevaluate, Step.lookUp_of_some hentry, hfound]
    rfl

/-- A block that reads its own variable. -/
def readingRun : Run := ⟨fun _ => 0, 5, "\x7b var a; a; \x7d"⟩

/-- The variable is read inside the block. -/
theorem visits_readingRun :
    ∃ m, Visits [readingRun] ⟨3, .evaluate (.var 0 ⟨.identifier, "a", 1, 9⟩), m⟩ ∧
      m.distances[0]? = some 0 := by
  have haccepted : ((start fun _ => 0).analysis readingRun.source).faults = [] := by
    decide +kernel
  have hprogram : ((start fun _ => 0).analysis readingRun.source).program =
      [.block [.var ⟨.identifier, "a", 1, 6⟩ none,
        .expression (.var 0 ⟨.identifier, "a", 1, 9⟩)]] := by
    cbv
  have hdistance : ((start fun _ => 0).opening readingRun).distances[0]? = some 0 := by
    decide +kernel
  have hvisits : Visits [readingRun] _ := .first rfl haccepted
  rw [hprogram] at hvisits
  have hblock := (hvisits.enters .firstRun).enters .block
  have hexpression := ((hblock.enters (.otherInOrder rfl)).enters .firstInOrder).enters .expression
  exact ⟨_, hexpression, hdistance⟩

/-- The frame in which it is found is that of the block and binds it. -/
theorem evaluate_var_agrees_in_block :
    ∃ m frame, Visits [readingRun] ⟨3, .evaluate (.var 0 ⟨.identifier, "a", 1, 9⟩), m⟩ ∧
      m.store.frameAbove? m.environment 0 = some frame ∧ frame ≠ m.globals ∧
      m.store.binds frame "a" := by
  obtain ⟨m, hvisits, hentry⟩ := visits_readingRun
  obtain ⟨a, place, -, hagrees⟩ := evaluate_var_agrees hvisits
  rw [hentry] at hagrees
  obtain ⟨-, region, scope, frame, value, -, hframe, hglobals, -, hbinds, -⟩ := hagrees
  exact ⟨m, frame, hvisits, hframe, hglobals, hbinds⟩

/-- An assignment to a variable that a scope declares finds the frame that was made when the region
    of that scope was entered, never the global one. It succeeds just if the scope has defined the
    name by then. If not, the assignment stands in the initializer of the variable that it is for,
    and no variable of the scope has had that name before. -/
theorem evaluate_assign_agrees (h : Visits runs ⟨n + 1, .evaluate (.assign ref name e), m⟩)
    (hentry : m.distances[ref]? = some d) (hvalue : evaluate n e m = .ok value m') :
    ∃ a place region scope frame, Occurs runs ref name a place ∧
      place.nest.Declares name.lexeme d region scope ∧
      m'.store.frameAbove? m'.environment d = some frame ∧ frame ≠ m'.globals ∧
      (survey runs).Made region frame ∧
      (m'.store.binds frame name.lexeme ↔ (name.lexeme, true) ∈ scope) ∧
      ((name.lexeme, true) ∈ scope → ∃ m'',
        evaluate (n + 1) (.assign ref name e) m = .ok value m'' ∧
          m''.store.read? frame name.lexeme = some value) ∧
      ((name.lexeme, true) ∉ scope → d = 0 ∧ scope.lookup name.lexeme = some false ∧
        evaluate (n + 1) (.assign ref name e) m =
          .error (.error ⟨name, .undefined name.lexeme⟩) m') := by
  obtain ⟨nest, hready⟩ := h.ready
  have hconsistent := (Survey.preserves _ n).of_evaluate hready.assigned hvalue |>.1
  have hevolves := Survey.evolves_of_evaluate hvalue
  have hwithin := hready.placed.evolve hready.consistent hevolves
  obtain ⟨a, place, hoccurs, rfl⟩ :=
    exists_occurs hwithin (List.mem_append_right _ (List.mem_singleton_self (ref, name)))
  have hdistance := hoccurs.getElem?_distances hready.consistent
  rw [hentry] at hdistance
  obtain ⟨region, scope, hdeclares⟩ := Nest.distance?_eq_some_iff.mp hdistance.symm
  obtain ⟨frame, hframe, hglobals, hmade, hbinds⟩ :=
    hwithin.stands.resolve hconsistent hwithin.settled hdeclares
  have hassigned : evaluate (n + 1) (.assign ref name e) m =
      (Step.writing name (m'.store.write frame name.lexeme value) >>= fun _ => pure value) m' := by
    have hentry' : m'.distances[ref]? = some d := by rw [hevolves.distances, hentry]
    have hassign := Step.assign_of_some hentry' name value
    rw [Store.assignAt, hframe] at hassign
    change (evaluate n e >>= fun value => Step.assign ref name value >>= fun _ => pure value) m = _
    rw [Step.bind_apply, hvalue]
    dsimp only
    rw [Step.bind_apply, Step.bind_apply, hassign]
  refine ⟨a, place, region, scope, frame, hoccurs, hdeclares, hframe, hglobals, hmade, hbinds,
    fun hdefined => ?_, fun hundefined => ?_⟩
  · have hbound := hbinds.mpr hdefined
    refine ⟨{ m' with store := m'.store.define frame name.lexeme value }, ?_, ?_⟩
    · rw [hassigned, Store.write, if_pos hbound]
      rfl
    · rw [Store.read?_define_eq, if_pos ⟨rfl, rfl, Store.lt_next_of_binds hbound⟩]
  · obtain ⟨hzero, hlookup⟩ := Survey.pending_of_not_mem hwithin.settled hdeclares hundefined
    refine ⟨hzero, hlookup, ?_⟩
    rw [hassigned, Store.write, if_neg fun hbound => hundefined (hbinds.mp hbound)]
    rfl

/-- A block whose variable is assigned to in its own initializer. -/
def assigningRun : Run := ⟨fun _ => 0, 5, "\x7b var a = (a = nil); \x7d"⟩

/-- The assignment is made before the variable is bound. -/
theorem visits_assigningRun :
    ∃ m, Visits [assigningRun]
        ⟨2, .evaluate (.assign 0 ⟨.identifier, "a", 1, 11⟩ (.literal .nil)), m⟩ ∧
      m.distances[0]? = some 0 ∧ m.store.binds m.environment "a" = false := by
  have haccepted : ((start fun _ => 0).analysis assigningRun.source).faults = [] := by
    decide +kernel
  have hprogram : ((start fun _ => 0).analysis assigningRun.source).program =
      [.block [.var ⟨.identifier, "a", 1, 6⟩
        (some (.grouping (.assign 0 ⟨.identifier, "a", 1, 11⟩ (.literal .nil))))]] := by
    cbv
  have hdistance : ((start fun _ => 0).opening assigningRun).distances[0]? = some 0 := by
    decide +kernel
  have hvisits : Visits [assigningRun] _ := .first rfl haccepted
  rw [hprogram] at hvisits
  have hblock := (hvisits.enters .firstRun).enters .block
  have hassign := ((hblock.enters .firstInOrder).enters .initializer).enters .grouping
  exact ⟨_, hassign, hdistance, rfl⟩

/-- The assignment fails, although scoping has a distance for its target. -/
theorem evaluate_assign_agrees_in_initializer :
    ∃ m, Visits [assigningRun]
        ⟨2, .evaluate (.assign 0 ⟨.identifier, "a", 1, 11⟩ (.literal .nil)), m⟩ ∧
      m.distances[0]? = some 0 ∧
      evaluate 2 (.assign 0 ⟨.identifier, "a", 1, 11⟩ (.literal .nil)) m =
        .error (.error ⟨⟨.identifier, "a", 1, 11⟩, .undefined "a"⟩) m := by
  obtain ⟨m, hvisits, hentry, hunbound⟩ := visits_assigningRun
  obtain ⟨a, place, region, scope, frame, -, -, hframe, -, -, hbinds, -, hpending⟩ :=
    evaluate_assign_agrees hvisits hentry rfl
  obtain rfl := Option.some.inj hframe
  have hundefined : ("a", true) ∉ scope := by
    rw [← hbinds, hunbound]
    exact Bool.false_ne_true
  exact ⟨m, hvisits, hentry, (hpending hundefined).2.2⟩

end Lox.Session
