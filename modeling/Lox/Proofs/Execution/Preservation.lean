import Lox.Proofs.Execution.Agreement
import Lox.Proofs.Execution.Operation

/-!
Every task keeps frames and scopes in agreement, and leaves the tasks that it hands out ready to be
carried out. The two are proved together, by induction on the fuel: a task that is handed out later
finds what those before it have left.
-/

namespace Lox.Survey

variable {S : Survey}

/-- What holds of a result: its machine is consistent, and its value is as it should be. -/
def Ends {α : Type} (S : Survey) (good : Machine → α → Prop) : EStateM.Result Stop Machine α → Prop
  | .ok a m => S.Consistent m ∧ good m a
  | .error _ m => S.Consistent m

/-- What a statement leaves: these scopes, or a value. -/
def Leaves (S : Survey) (nest : Nest) (m : Machine) : Flow → Prop
  | .normal => S.Stands m nest
  | .returned value => S.Rooted m value

/-- With this fuel, tasks that are ready keep to the agreement. -/
structure Preserves (S : Survey) (n : Nat) : Prop where
  evaluate : ∀ {nest e m}, S.Ready nest ⟨n, .evaluate e, m⟩ → S.Ends S.Rooted (Lox.evaluate n e m)
  call : ∀ {nest f arguments paren m}, S.Ready nest ⟨n, .call f arguments paren, m⟩ →
    S.Ends S.Rooted (Lox.call n f arguments paren m)
  execute : ∀ {nest s m}, S.Ready nest ⟨n, .execute s, m⟩ →
    S.Ends (S.Leaves (s.places nest).2) (Lox.execute n s m)
  loop : ∀ {nest e s m}, S.Ready nest ⟨n, .loop e s, m⟩ →
    S.Ends (S.Leaves nest) (Lox.loop n e s m)

variable {α β : Type} {n k : Nat} {nest : Nest} {m m' m'' : Machine} {e left right : Expr RefId}
  {es args : List (Expr RefId)} {operator name paren keyword : Token} {ref : RefId}
  {value : Value} {s s' : Stmt RefId} {ss : List (Stmt RefId)}

/-- The second step begins on a machine on which frames and scopes agree. -/
theorem Ends.bind {good : Machine → α → Prop} {good' : Machine → β → Prop} {step : Step α}
    {next : α → Step β} (h : S.Ends good (step m))
    (hnext : ∀ {a m'}, step m = .ok a m' → S.Consistent m' → good m' a →
      S.Ends good' (next a m')) : S.Ends good' ((step >>= next) m) := by
  rw [Step.bind_apply]
  cases hstep : step m with
  | ok a m' =>
    rw [hstep] at h
    exact hnext hstep h.1 h.2
  | error stop m' =>
    rw [hstep] at h
    exact h

theorem Ends.ofExcept {good : Machine → α → Prop} {result : Except RuntimeProblem α}
    (hm : S.Consistent m) (h : ∀ a, result = .ok a → good m a) (token : Token) :
    S.Ends good (Step.ofExcept token result m) := by
  cases result with
  | ok a => exact ⟨hm, h a rfl⟩
  | error problem => exact hm

/-- An expression binds no names in the frames that were there. -/
theorem evolves_of_evaluate (h : Lox.evaluate n e m = .ok value m') : m.Evolves false m' :=
  ((evolves n).1 e).of_ok h

/-- The machine behind an expression agrees with the scopes, and the value was made in frames that
    do. -/
theorem Preserves.of_evaluate (hn : S.Preserves n) (h : S.Ready nest ⟨n, .evaluate e, m⟩)
    (hok : Lox.evaluate n e m = .ok value m') : S.Consistent m' ∧ S.Rooted m' value := by
  have hends := hn.evaluate h
  rwa [hok] at hends

section Expressions

/-! Tasks for the parts of an expression. -/

/-- An expression may be evaluated where all its references stand. -/
theorem Ready.evaluate_of_within {p : Point} (h : S.Ready nest p)
    (henters : p.Enters ⟨n, .evaluate e, p.machine⟩)
    (hwithin : S.Within nest p.machine (e.findings nest.scopes) e.references) :
    S.Ready nest ⟨n, .evaluate e, p.machine⟩ :=
  ⟨S.enters h.visited henters, h.consistent, hwithin⟩

theorem Ready.grouping (h : S.Ready nest ⟨n + 1, .evaluate (.grouping e), m⟩) :
    S.Ready nest ⟨n, .evaluate e, m⟩ :=
  h.evaluate_of_within .grouping h.placed

theorem Ready.operand (h : S.Ready nest ⟨n + 1, .evaluate (.unary operator e), m⟩) :
    S.Ready nest ⟨n, .evaluate e, m⟩ :=
  h.evaluate_of_within .operand h.placed

theorem Ready.binaryLeft (h : S.Ready nest ⟨n + 1, .evaluate (.binary left operator right), m⟩) :
    S.Ready nest ⟨n, .evaluate left, m⟩ :=
  h.evaluate_of_within .binaryLeft
    (h.placed.part (List.subset_append_left _ _) (List.subset_append_left _ _))

/-- The right operand finds what the left has left. -/
theorem Ready.binaryRight (hn : S.Preserves n)
    (h : S.Ready nest ⟨n + 1, .evaluate (.binary left operator right), m⟩)
    (hleft : Lox.evaluate n left m = .ok value m') : S.Ready nest ⟨n, .evaluate right, m'⟩ where
  visited := S.enters h.visited (.binaryRight hleft)
  consistent := (hn.of_evaluate h.binaryLeft hleft).1
  placed := (h.placed.part (List.subset_append_right _ _) (List.subset_append_right _ _)).evolve
    h.consistent (evolves_of_evaluate hleft)

theorem Ready.logicalLeft (h : S.Ready nest ⟨n + 1, .evaluate (.logical left operator right), m⟩) :
    S.Ready nest ⟨n, .evaluate left, m⟩ :=
  h.evaluate_of_within .logicalLeft
    (h.placed.part (List.subset_append_left _ _) (List.subset_append_left _ _))

/-- The right operand of a logical operator finds what the left one has left. -/
theorem Ready.logicalRight (hn : S.Preserves n)
    (h : S.Ready nest ⟨n + 1, .evaluate (.logical left operator right), m⟩)
    (hleft : Lox.evaluate n left m = .ok value m')
    (hmore : Operation.shortCircuits operator.kind value = false) :
    S.Ready nest ⟨n, .evaluate right, m'⟩ where
  visited := S.enters h.visited (.logicalRight hleft hmore)
  consistent := (hn.of_evaluate h.logicalLeft hleft).1
  placed := (h.placed.part (List.subset_append_right _ _) (List.subset_append_right _ _)).evolve
    h.consistent (evolves_of_evaluate hleft)

theorem Ready.assigned (h : S.Ready nest ⟨n + 1, .evaluate (.assign ref name e), m⟩) :
    S.Ready nest ⟨n, .evaluate e, m⟩ :=
  h.evaluate_of_within .assigned
    (h.placed.part (List.subset_append_left _ _) (List.subset_append_left _ _))

theorem Ready.callee (h : S.Ready nest ⟨n + 1, .evaluate (.call e paren args), m⟩) :
    S.Ready nest ⟨n, .evaluate e, m⟩ :=
  h.evaluate_of_within .callee
    (h.placed.part (List.subset_append_left _ _) (List.subset_append_left _ _))

/-- The arguments find what the callee has left. -/
theorem Ready.arguments (hn : S.Preserves n)
    (h : S.Ready nest ⟨n + 1, .evaluate (.call e paren args), m⟩)
    (hcallee : Lox.evaluate n e m = .ok value m') : S.Ready nest ⟨n, .values args, m'⟩ where
  visited := S.enters h.visited (.arguments hcallee)
  consistent := (hn.of_evaluate h.callee hcallee).1
  placed := (h.placed.part (List.subset_append_right _ _) (List.subset_append_right _ _)).evolve
    h.consistent (evolves_of_evaluate hcallee)

theorem Ready.firstValue (h : S.Ready nest ⟨n, .values (e :: es), m⟩) :
    S.Ready nest ⟨n, .evaluate e, m⟩ :=
  h.evaluate_of_within .firstValue
    (h.placed.part (List.subset_append_left _ _) (List.subset_append_left _ _))

/-- Later arguments find what the first has left. -/
theorem Ready.otherValues (hn : S.Preserves n) (h : S.Ready nest ⟨n, .values (e :: es), m⟩)
    (hfirst : Lox.evaluate n e m = .ok value m') : S.Ready nest ⟨n, .values es, m'⟩ where
  visited := S.enters h.visited (.otherValues hfirst)
  consistent := (hn.of_evaluate h.firstValue hfirst).1
  placed := (h.placed.part (List.subset_append_right _ _) (List.subset_append_right _ _)).evolve
    h.consistent (evolves_of_evaluate hfirst)

/-- The values of arguments are as they should be, and so is the machine behind them. -/
theorem Preserves.values (hn : S.Preserves n) (h : S.Ready nest ⟨n, .values es, m⟩) :
    S.Ends (fun m' values => ∀ value ∈ values, S.Rooted m' value)
      (Step.values (Lox.evaluate n) es m) := by
  induction es generalizing m with
  | nil => exact ⟨h.consistent, by simp⟩
  | cons e es ih =>
    refine (hn.evaluate h.firstValue).bind fun hfirst _ hvalue => ?_
    have hothers := h.otherValues hn hfirst
    refine Ends.bind (ih hothers) fun {values m''} hvalues hconsistent hrooted => ?_
    have hevolves := (Step.Evolves.values (evolves n).1 es).of_ok hvalues
    exact ⟨hconsistent, List.forall_mem_cons.mpr ⟨hvalue.evolve hevolves, hrooted⟩⟩

/-- What is called takes as many arguments as there are. -/
theorem callee_eq_ok {f : Callable} {given : Nat} (h : value.callee given = .ok f) :
    given = f.arity ∧ ∀ g, f = .function g → value = .function g := by
  unfold Value.callee at h
  cases hcallable : value.callable? with
  | none => simp [hcallable] at h
  | some f' =>
    simp only [hcallable] at h
    split at h
    · cases h
      refine ⟨by assumption, fun g hg => ?_⟩
      subst hg
      cases value <;> simp_all [Value.callable?]
    · cases h

/-- The call finds what callee and arguments have left. -/
theorem Ready.applied (hn : S.Preserves n)
    (h : S.Ready nest ⟨n + 1, .evaluate (.call e paren args), m⟩)
    {values : List Value} {f : Callable} (hcallee : Lox.evaluate n e m = .ok value m')
    (harguments : Step.values (Lox.evaluate n) args m' = .ok values m'')
    (hcallable : value.callee values.length = .ok f) :
    S.Ready nest ⟨n, .call f values paren, m''⟩ := by
  have hready := h.arguments hn hcallee
  have hends := hn.values hready
  have hevolves := (Step.Evolves.values (evolves n).1 args).of_ok harguments
  rw [harguments] at hends
  obtain ⟨hconsistent, hrooted⟩ := hends
  refine ⟨S.enters h.visited (.applied hcallee harguments hcallable), hconsistent, ?_⟩
  obtain ⟨harity, hfunction⟩ := callee_eq_ok hcallable
  cases f with
  | native f => exact hrooted
  | function f =>
    obtain rfl := hfunction f rfl
    exact ⟨(hn.of_evaluate h.callee hcallee).2.evolve hevolves, hrooted, harity⟩

/-- The body of a function finds a frame with the parameters, in front of the frame in which the
    function was declared. -/
theorem Ready.called {f : Closure} {values : List Value}
    (h : S.Ready nest ⟨n + 1, .call (.function f) values paren, m⟩)
    (hdepth : m.callDepth < maxCallDepth) :
    ∃ inner, S.Ready inner
      ⟨n, .inOrder f.body, m.called.entered f.frame (f.bindings values)⟩ := by
  obtain ⟨⟨outer, hrealizes, hsettled, hcovers⟩, hvalues, hlength⟩ := h.placed
  have hmade : S.Made (.function f.parameters f.body) m.store.next :=
    ⟨_, h.visited, .function hdepth, rfl⟩
  have hcalled : S.Consistent m.called := h.consistent.of_eq rfl rfl rfl
  refine ⟨_, S.enters h.visited (.called hdepth), ?_, ?_, hsettled.cons ?_, hcovers⟩
  · refine hcalled.entered fun b hb => ?_
    exact (hvalues b.2 (List.of_mem_zip hb).2).of_eq rfl rfl
  · refine Stands.entered (m := m.called) hrealizes hmade fun name => ?_
    rw [Scope.mem_ofParameters, Closure.exists_mem_bindings hlength]
    simp
  · intro name defined hname
    rw [Scope.mem_ofParameters] at hname ⊢
    exact ⟨rfl, hname.2⟩

end Expressions

section Statements

/-! Tasks for the parts of a statement, and for statements in a row. -/

/-- An expression of a statement stands at a place of the program. -/
theorem Ready.evaluate_of_place {p : Point} (h : S.Ready nest p)
    (henters : p.Enters ⟨n, .evaluate e, p.machine⟩) (hstands : S.Stands p.machine nest)
    (hsettled : nest.Settled) (hplace : S.place ⟨nest, e⟩) :
    S.Ready nest ⟨n, .evaluate e, p.machine⟩ :=
  h.evaluate_of_within henters (.of_place hstands hsettled hplace)

theorem Ready.expression (h : S.Ready nest ⟨n + 1, .execute (.expression e), m⟩) :
    S.Ready nest ⟨n, .evaluate e, m⟩ := by
  obtain ⟨hstands, hsettled, hplaces, -⟩ := h.placed
  exact h.evaluate_of_place .expression hstands hsettled (hplaces _ (List.mem_singleton_self _))

theorem Ready.print (h : S.Ready nest ⟨n + 1, .execute (.print e), m⟩) :
    S.Ready nest ⟨n, .evaluate e, m⟩ := by
  obtain ⟨hstands, hsettled, hplaces, -⟩ := h.placed
  exact h.evaluate_of_place .print hstands hsettled (hplaces _ (List.mem_singleton_self _))

theorem Ready.returned (h : S.Ready nest ⟨n + 1, .execute (.return keyword (some e)), m⟩) :
    S.Ready nest ⟨n, .evaluate e, m⟩ := by
  obtain ⟨hstands, hsettled, hplaces, -⟩ := h.placed
  exact h.evaluate_of_place .returned hstands hsettled (hplaces _ (List.mem_singleton_self _))

/-- The initializer of a variable stands where its name is declared already. -/
theorem Ready.initializer (h : S.Ready nest ⟨n + 1, .execute (.var name (some e)), m⟩) :
    S.Ready (nest.record name false) ⟨n, .evaluate e, m⟩ := by
  obtain ⟨hstands, hsettled, hplaces, -⟩ := h.placed
  have hplace := hplaces _ (List.mem_singleton_self _)
  have htail : (nest.record name false).tail = nest.tail := by cases nest <;> rfl
  refine ⟨S.enters h.visited .initializer, h.consistent, hstands.declare name, ?_,
    S.faultless hplace, e, hplace, List.Subset.refl _⟩
  rw [htail]
  exact hsettled.tail

theorem Ready.condition {other : Option (Stmt RefId)}
    (h : S.Ready nest ⟨n + 1, .execute (.if e s other), m⟩) :
    S.Ready nest ⟨n, .evaluate e, m⟩ := by
  obtain ⟨hstands, hsettled, hplaces, -⟩ := h.placed
  refine h.evaluate_of_place .condition hstands hsettled (hplaces _ ?_)
  cases other <;> exact List.mem_cons_self

/-- The branch finds what the condition has left. -/
theorem Ready.thenBranch (hn : S.Preserves n) {other : Option (Stmt RefId)}
    (h : S.Ready nest ⟨n + 1, .execute (.if e s other), m⟩)
    (hcondition : Lox.evaluate n e m = .ok value m') (htruthy : value.isTruthy = true) :
    S.Ready nest ⟨n, .execute s, m'⟩ := by
  obtain ⟨hstands, hsettled, hplaces, hproper⟩ := h.placed
  refine ⟨S.enters h.visited (.thenBranch hcondition htruthy),
    (hn.of_evaluate h.condition hcondition).1,
    hstands.evolve h.consistent (evolves_of_evaluate hcondition), hsettled, fun p hp => ?_, ?_⟩
  · cases other with
    | none => exact hplaces p (List.mem_cons_of_mem _ hp)
    | some s' => exact hplaces p (List.mem_cons_of_mem _ (List.mem_append_left _ hp))
  · cases other with
    | none => exact hproper.1
    | some s' => exact hproper.1.1

/-- The other branch of a conditional finds what the condition has left. -/
theorem Ready.elseBranch (hn : S.Preserves n)
    (h : S.Ready nest ⟨n + 1, .execute (.if e s (some s')), m⟩)
    (hcondition : Lox.evaluate n e m = .ok value m') (htruthy : value.isTruthy = false) :
    S.Ready nest ⟨n, .execute s', m'⟩ := by
  obtain ⟨hstands, hsettled, hplaces, hproper⟩ := h.placed
  refine ⟨S.enters h.visited (.elseBranch hcondition htruthy),
    (hn.of_evaluate h.condition hcondition).1,
    hstands.evolve h.consistent (evolves_of_evaluate hcondition), hsettled, fun p hp => ?_,
    hproper.2.1⟩
  refine hplaces p (List.mem_cons_of_mem _ (List.mem_append_right _ ?_))
  rwa [hproper.1.1.places_snd hproper.1.2]

/-- The statements of a block stand in a scope of their own, and run in a frame of their own. -/
theorem Ready.block (h : S.Ready nest ⟨n + 1, .execute (.block ss), m⟩) :
    S.Ready ((.block ss, []) :: nest) ⟨n, .inOrder ss, m.entered m.environment []⟩ := by
  obtain ⟨hstands, hsettled, hplaces, hproper⟩ := h.placed
  have hmade : S.Made (.block ss) m.store.next := ⟨_, h.visited, .block, rfl⟩
  exact ⟨S.enters h.visited .block, h.consistent.entered (by simp),
    .entered hstands.realizes hmade (by simp), hsettled.cons (by simp), hplaces, hproper⟩

theorem Ready.loop (h : S.Ready nest ⟨n + 1, .execute (.while e s), m⟩) :
    S.Ready nest ⟨n, .loop e s, m⟩ := by
  obtain ⟨hstands, hsettled, hplaces, hproper, hdeclares⟩ := h.placed
  exact ⟨S.enters h.visited .loop, h.consistent, hstands, hsettled, hplaces _ List.mem_cons_self,
    fun p hp => hplaces p (List.mem_cons_of_mem _ hp), hproper, hdeclares⟩

theorem Ready.turnCondition (h : S.Ready nest ⟨n + 1, .loop e s, m⟩) :
    S.Ready nest ⟨n, .evaluate e, m⟩ := by
  obtain ⟨hstands, hsettled, hplace, -⟩ := h.placed
  exact h.evaluate_of_place .turnCondition hstands hsettled hplace

/-- The body of a loop finds what the condition has left. -/
theorem Ready.turnBody (hn : S.Preserves n) (h : S.Ready nest ⟨n + 1, .loop e s, m⟩)
    (hcondition : Lox.evaluate n e m = .ok value m') (htruthy : value.isTruthy = true) :
    S.Ready nest ⟨n, .execute s, m'⟩ := by
  obtain ⟨hstands, hsettled, -, hplaces, hproper, -⟩ := h.placed
  exact ⟨S.enters h.visited (.turnBody hcondition htruthy),
    (hn.of_evaluate h.turnCondition hcondition).1,
    hstands.evolve h.consistent (evolves_of_evaluate hcondition), hsettled, hplaces, hproper⟩

/-- The next turn finds what the body has left, among the same scopes. -/
theorem Ready.nextTurn (hn : S.Preserves n) (h : S.Ready nest ⟨n + 1, .loop e s, m⟩)
    (hcondition : Lox.evaluate n e m = .ok value m') (htruthy : value.isTruthy = true)
    (hbody : Lox.execute n s m' = .ok .normal m'') : S.Ready nest ⟨n, .loop e s, m''⟩ := by
  obtain ⟨-, hsettled, hplace, hplaces, hproper, hdeclares⟩ := h.placed
  have hends := hn.execute (h.turnBody hn hcondition htruthy)
  rw [hbody, hproper.places_snd hdeclares] at hends
  exact ⟨S.enters h.visited (.nextTurn hcondition htruthy hbody), hends.1, hends.2, hsettled,
    hplace, hplaces, hproper, hdeclares⟩

theorem Ready.firstInOrder (h : S.Ready nest ⟨n, .inOrder (s :: ss), m⟩) :
    S.Ready nest ⟨n, .execute s, m⟩ := by
  obtain ⟨hstands, hsettled, hplaces, hproper⟩ := h.placed
  exact ⟨S.enters h.visited .firstInOrder, h.consistent, hstands, hsettled,
    fun p hp => hplaces p (List.mem_append_left _ hp), hproper.1⟩

/-- Later statements stand among the scopes that the first leaves. -/
theorem Ready.otherInOrder (hn : S.Preserves n) (h : S.Ready nest ⟨n, .inOrder (s :: ss), m⟩)
    (hfirst : Lox.execute n s m = .ok .normal m') :
    S.Ready (s.places nest).2 ⟨n, .inOrder ss, m'⟩ := by
  obtain ⟨-, hsettled, hplaces, hproper⟩ := h.placed
  have hends := hn.execute h.firstInOrder
  rw [hfirst] at hends
  exact ⟨S.enters h.visited (.otherInOrder hfirst), hends.1, hends.2, hsettled.places s,
    fun p hp => hplaces p (List.mem_append_right _ hp), hproper.2⟩

theorem Ready.firstRun (h : S.Ready nest ⟨n, .run (s :: ss), m⟩) :
    S.Ready [] ⟨n, .execute s, m⟩ := by
  obtain ⟨-, hstands, hplaces, hproper⟩ := h.placed
  exact ⟨S.enters h.visited .firstRun, h.consistent, hstands, by simp [Nest.Settled],
    fun p hp => hplaces p (List.mem_append_left _ hp), hproper.1⟩

/-- Outside all functions the next statement follows even behind a `return`. -/
theorem Ready.otherRun (hn : S.Preserves n) (h : S.Ready nest ⟨n, .run (s :: ss), m⟩)
    {flow : Flow} (hfirst : Lox.execute n s m = .ok flow m') : S.Ready [] ⟨n, .run ss, m'⟩ := by
  obtain ⟨-, hstands, hplaces, hproper⟩ := h.placed
  have hends := hn.execute h.firstRun
  have hevolves := ((evolves n).2.2.1 s).of_ok hfirst
  rw [hfirst] at hends
  refine ⟨S.enters h.visited (.otherRun hfirst), hends.1, rfl, ⟨?_, by simp⟩, fun p hp => ?_,
    hproper.2⟩
  · rw [hevolves.environment]
    exact hstands.realizes.evolve hevolves
  · refine hplaces p (List.mem_append_right _ ?_)
    rwa [Stmt.places_nil_snd s]

end Statements

section Steps

/-- A value of which the program made no function remembers no frame. -/
theorem rooted_of_callable? (h : value.callable? = none) : S.Rooted m value := by
  cases value with
  | function f => cases h
  | _ => trivial

/-- A native function returns no function that it was not given. -/
theorem Ends.native {f : Native} {values : List Value} (hm : S.Consistent m)
    (hvalues : ∀ value ∈ values, S.Rooted m value) : S.Ends S.Rooted (f.call values paren m) := by
  unfold Native.call
  cases f.action with
  | clock =>
    have hevolves := (Step.Evolves.readClock : Step.readClock.Evolves false) m
    exact ⟨hm.evolve hevolves fun g name found hread => .inl hread, trivial⟩
  | echo =>
    refine ⟨hm, ?_⟩
    cases values with
    | nil => trivial
    | cons value values => exact hvalues value (by simp)
  | fail => exact hm
  | ignore => exact ⟨hm, trivial⟩

/-- What is read was stored, so it was made in frames that agree. -/
theorem Ends.lookUp (hm : S.Consistent m) (ref : RefId) (name : Token) :
    S.Ends S.Rooted (Step.lookUp ref name m) := by
  have hreading (found : Option Value) (hfound : ∀ value, found = some value → S.Rooted m value) :
      S.Ends S.Rooted (Step.reading name found m) := by
    cases found with
    | none => exact hm
    | some value => exact ⟨hm, hfound value rfl⟩
  cases h : m.distances[ref]? with
  | none =>
    rw [Step.lookUp_of_none h]
    refine hreading _ fun value hvalue => ?_
    obtain ⟨f, -, hread⟩ := Option.bind_eq_some_iff.mp hvalue
    exact hm.rooted f _ value hread
  | some distance =>
    rw [Step.lookUp_of_some h]
    refine hreading _ fun value hvalue => ?_
    obtain ⟨f, -, hread⟩ := Option.bind_eq_some_iff.mp hvalue
    exact hm.rooted f _ value hread

/-- An assignment binds no new name. -/
theorem Ends.assign (hm : S.Consistent m) (hvalue : S.Rooted m value) (ref : RefId) (name : Token) :
    S.Ends (fun m' _ => S.Rooted m' value) (Step.assign ref name value m) := by
  have hconsistent : S.Consistent ((Step.assign ref name value).after m) := by
    obtain ⟨f, -, h⟩ | h := Step.after_assign ref name value m
    · rw [h]
      exact hm.write hvalue f name.lexeme
    · rw [h]
      exact hm
  have hevolves : m.Evolves false _ := Step.Evolves.assign ref name value m
  unfold Step.after at hconsistent hevolves
  cases h : Step.assign ref name value m with
  | ok u m' =>
    rw [h] at hconsistent hevolves
    exact ⟨hconsistent, hvalue.evolve hevolves⟩
  | error stop m' =>
    rw [h] at hconsistent
    exact hconsistent

/-- Behind the body the old frame is current again, and what the body made stays. -/
theorem Ends.inFrame {enclosing : FrameId} {bindings : List (String × Value)} {body : Step Flow}
    (h : S.Ends (fun m' flow => S.Rooted m' flow.value) (body (m.entered enclosing bindings))) :
    S.Ends (fun m' flow => S.Rooted m' flow.value) (Step.inFrame enclosing bindings body m) := by
  rw [Step.inFrame_apply]
  cases hbody : body (m.entered enclosing bindings) with
  | ok flow m' =>
    rw [hbody] at h
    exact ⟨h.1.of_eq rfl rfl rfl, h.2.of_eq rfl rfl⟩
  | error stop m' =>
    rw [hbody] at h
    exact Consistent.of_eq h rfl rfl rfl

/-- A call changes nothing but the depth. -/
theorem Ends.asCall {body : Step Flow} (hm : S.Consistent m)
    (h : m.callDepth < maxCallDepth →
      S.Ends (fun m' flow => S.Rooted m' flow.value) (body m.called)) (paren : Token) :
    S.Ends (fun m' flow => S.Rooted m' flow.value) (Step.asCall paren body m) := by
  rcases Nat.lt_or_ge m.callDepth maxCallDepth with hdepth | hdepth
  · have hends := h hdepth
    rw [Step.asCall_apply_of_lt _ _ hdepth]
    cases hbody : body m.called with
    | ok flow m' =>
      rw [hbody] at hends
      exact ⟨hends.1.of_eq rfl rfl rfl, hends.2.of_eq rfl rfl⟩
    | error stop m' =>
      rw [hbody] at hends
      exact Consistent.of_eq hends rfl rfl rfl
  · rw [Step.asCall_apply_of_le _ _ hdepth]
    exact hm

/-- Statements in a row end with a value of the kind that all values are of. -/
theorem Preserves.inOrder (hn : S.Preserves n) (h : S.Ready nest ⟨n, .inOrder ss, m⟩) :
    S.Ends (fun m' flow => S.Rooted m' flow.value) (Step.inOrder (Lox.execute n) ss m) := by
  induction ss generalizing m nest with
  | nil => exact ⟨h.consistent, trivial⟩
  | cons s ss ih =>
    refine (hn.execute h.firstInOrder).bind fun {flow _} hfirst hconsistent hleaves => ?_
    cases flow with
    | normal => exact ih (h.otherInOrder hn hfirst)
    | returned value => exact ⟨hconsistent, hleaves⟩

/-- The step for expressions. -/
theorem Preserves.evaluate_succ (hn : S.Preserves n)
    (h : S.Ready nest ⟨n + 1, .evaluate e, m⟩) : S.Ends S.Rooted (Lox.evaluate (n + 1) e m) := by
  cases e with
  | literal value =>
    refine ⟨h.consistent, ?_⟩
    cases value <;> trivial
  | grouping inner => exact hn.evaluate h.grouping
  | unary operator operand =>
    refine (hn.evaluate h.operand).bind fun _ hconsistent _ => ?_
    exact .ofExcept hconsistent
      (fun _ h => rooted_of_callable? (Operation.callable?_unary h)) operator
  | binary left operator right =>
    refine (hn.evaluate h.binaryLeft).bind fun hleft _ _ => ?_
    refine (hn.evaluate (h.binaryRight hn hleft)).bind fun _ hconsistent _ => ?_
    exact .ofExcept hconsistent
      (fun _ h => rooted_of_callable? (Operation.callable?_binary h)) operator
  | logical left operator right =>
    refine (hn.evaluate h.logicalLeft).bind fun {value m'} hleft hconsistent hrooted => ?_
    cases hmore : Operation.shortCircuits operator.kind value with
    | false => exact hn.evaluate (h.logicalRight hn hleft hmore)
    | true => exact ⟨hconsistent, hrooted⟩
  | var ref name => exact .lookUp h.consistent ref name
  | assign ref name value =>
    refine (hn.evaluate h.assigned).bind fun _ hconsistent hrooted => ?_
    refine (Ends.assign hconsistent hrooted ref name).bind fun _ hconsistent' hrooted' => ?_
    exact ⟨hconsistent', hrooted'⟩
  | call callee paren arguments =>
    refine (hn.evaluate h.callee).bind fun {value m'} hcallee _ _ => ?_
    refine (hn.values (h.arguments hn hcallee)).bind fun {values m''} harguments hconsistent _ => ?_
    cases hcallable : value.callee values.length with
    | error problem => exact hconsistent
    | ok f => exact hn.call (h.applied hn hcallee harguments hcallable)

/-- The step for calls: the body runs among the scopes of its declaration. -/
theorem Preserves.call_succ (hn : S.Preserves n) {f : Callable} {values : List Value}
    (h : S.Ready nest ⟨n + 1, .call f values paren, m⟩) :
    S.Ends S.Rooted (Lox.call (n + 1) f values paren m) := by
  cases f with
  | native f => exact .native h.consistent h.placed
  | function f =>
    have hbody : S.Ends (fun m' flow => S.Rooted m' flow.value)
        (Step.asCall paren (Step.inFrame f.frame (f.bindings values)
          (Step.inOrder (Lox.execute n) f.body)) m) := by
      refine Ends.asCall h.consistent (fun hdepth => ?_) paren
      obtain ⟨inner, hready⟩ := h.called hdepth
      exact .inFrame (hn.inOrder hready)
    exact hbody.bind fun _ hconsistent hrooted => ⟨hconsistent, hrooted⟩

/-- A variable is defined in the frame and in the scope alike. -/
theorem Ends.defineVariable (hm : S.Consistent m) (hstands : S.Stands m (nest.record name false))
    (hvalue : S.Rooted m value) :
    S.Ends (fun m' _ => S.Stands m' ((nest.record name false).record name true))
      (Step.define name value m) :=
  ⟨hm.define (hvalue.evolve (.define m name.lexeme value)), hstands.define hm name value⟩

/-- A function is rooted as soon as its name is defined, because its body may refer to it. -/
theorem Ends.defineFunction {parameters : List Token} (hm : S.Consistent m)
    (hstands : S.Stands m nest) (hsettled : nest.Settled)
    (hcovers : S.Covers
      ((.function parameters ss, Scope.ofParameters parameters) :: nest.record name true) ss) :
    S.Ends (S.Leaves (nest.record name true))
      (Lox.execute (n + 1) (.function name parameters ss) m) := by
  let m₁ : Machine := { m with functions := m.functions + 1 }
  have hm₁ : S.Consistent m₁ :=
    hm.evolve (Step.Evolves.makeFunction name parameters ss m : m.Evolves false m₁)
      fun _ _ _ hread => .inl hread
  have hstands₁ : S.Stands m₁ nest := ⟨hstands.realizes, hstands.defined⟩
  have hdefined := hstands₁.define hm₁ name
    (.function ⟨m.functions, name, parameters, ss, m.environment⟩)
  exact ⟨hm₁.define ⟨_, hdefined.realizes, hsettled.record, hcovers⟩, hdefined⟩

/-- The step for statements. Behind one that ends normally, the scopes are those behind its text. -/
theorem Preserves.execute_succ (hn : S.Preserves n) (h : S.Ready nest ⟨n + 1, .execute s, m⟩) :
    S.Ends (S.Leaves (s.places nest).2) (Lox.execute (n + 1) s m) := by
  obtain ⟨hstands, hsettled, hplaces, hproper⟩ := h.placed
  cases s with
  | expression e =>
    refine (hn.evaluate h.expression).bind fun hok hconsistent _ => ?_
    exact ⟨hconsistent, hstands.evolve h.consistent (evolves_of_evaluate hok)⟩
  | print e =>
    refine (hn.evaluate h.print).bind fun {value m'} hok hconsistent _ => ?_
    have hevolves : m'.Evolves false _ := Step.Evolves.print value m'
    exact ⟨hconsistent.evolve hevolves fun _ _ _ hread => .inl hread,
      (hstands.evolve h.consistent (evolves_of_evaluate hok)).evolve hconsistent hevolves⟩
  | var name initializer =>
    cases initializer with
    | none =>
      have hnil : S.Rooted m .nil := trivial
      exact (Ends.defineVariable h.consistent (hstands.declare name) hnil).bind
        fun _ hconsistent hdefined => ⟨hconsistent, hdefined⟩
    | some e =>
      refine (hn.evaluate h.initializer).bind fun hok hconsistent hrooted => ?_
      have hdeclared := (hstands.declare name).evolve h.consistent (evolves_of_evaluate hok)
      exact (Ends.defineVariable hconsistent hdeclared hrooted).bind
        fun _ hconsistent' hdefined => ⟨hconsistent', hdefined⟩
  | block body =>
    have hends := Ends.inFrame (hn.inOrder h.block)
    have hevolves :
        (Step.inFrame m.environment [] (Step.inOrder (Lox.execute n) body)).Evolves false :=
      .inFrame (.inOrder (evolves n).2.2.1 body)
    change S.Ends _ (Step.inFrame m.environment [] (Step.inOrder (Lox.execute n) body) m)
    cases hresult : Step.inFrame m.environment [] (Step.inOrder (Lox.execute n) body) m with
    | ok flow m' =>
      rw [hresult] at hends
      refine ⟨hends.1, ?_⟩
      cases flow with
      | normal => exact hstands.evolve h.consistent (hevolves.of_ok hresult)
      | returned value => exact hends.2
    | error stop m' =>
      rw [hresult] at hends
      exact hends
  | «if» condition thenBranch elseBranch =>
    rw [hproper.places_snd rfl]
    refine (hn.evaluate h.condition).bind fun {value m'} hcondition hconsistent _ => ?_
    cases htruthy : value.isTruthy with
    | true =>
      have hthen := hn.execute (h.thenBranch hn hcondition htruthy)
      cases elseBranch with
      | none => rwa [hproper.1.places_snd hproper.2] at hthen
      | some elseBranch => rwa [hproper.1.1.places_snd hproper.1.2] at hthen
    | false =>
      cases elseBranch with
      | none =>
        exact ⟨hconsistent, hstands.evolve h.consistent (evolves_of_evaluate hcondition)⟩
      | some elseBranch =>
        have helse := hn.execute (h.elseBranch hn hcondition htruthy)
        rwa [hproper.2.1.places_snd hproper.2.2] at helse
  | «while» condition body =>
    rw [hproper.places_snd rfl]
    exact hn.loop h.loop
  | function name parameters body =>
    exact .defineFunction h.consistent hstands hsettled ⟨hplaces, hproper⟩
  | «return» keyword value =>
    cases value with
    | none => exact ⟨h.consistent, trivial⟩
    | some e =>
      refine (hn.evaluate h.returned).bind fun _ hconsistent hrooted => ⟨hconsistent, hrooted⟩

/-- The step for loops, one turn at a time. -/
theorem Preserves.loop_succ (hn : S.Preserves n) (h : S.Ready nest ⟨n + 1, .loop e s, m⟩) :
    S.Ends (S.Leaves nest) (Lox.loop (n + 1) e s m) := by
  obtain ⟨hstands, -, -, -, hproper, hdeclares⟩ := h.placed
  refine (hn.evaluate h.turnCondition).bind fun {value m'} hcondition hconsistent _ => ?_
  cases htruthy : value.isTruthy with
  | false => exact ⟨hconsistent, hstands.evolve h.consistent (evolves_of_evaluate hcondition)⟩
  | true =>
    refine Ends.bind (hn.execute (h.turnBody hn hcondition htruthy))
      fun {flow _} hbody hconsistent' hleaves => ?_
    cases flow with
    | normal => exact hn.loop (h.nextTurn hn hcondition htruthy hbody)
    | returned value => exact ⟨hconsistent', hleaves⟩

end Steps

/-- Whatever is carried out keeps to the agreement. -/
theorem preserves (S : Survey) (n : Nat) : S.Preserves n := by
  induction n with
  | zero => exact ⟨fun h => h.consistent, fun h => h.consistent, fun h => h.consistent,
      fun h => h.consistent⟩
  | succ n ih => exact ⟨ih.evaluate_succ, ih.call_succ, ih.execute_succ, ih.loop_succ⟩

/-- Whatever a task that is ready hands out is ready as well. -/
theorem Ready.of_enters {p q : Point} (h : S.Ready nest p) (henters : p.Enters q) :
    ∃ inner, S.Ready inner q := by
  cases henters with
  | grouping => exact ⟨_, h.grouping⟩
  | operand => exact ⟨_, h.operand⟩
  | binaryLeft => exact ⟨_, h.binaryLeft⟩
  | binaryRight hleft => exact ⟨_, h.binaryRight (preserves S _) hleft⟩
  | logicalLeft => exact ⟨_, h.logicalLeft⟩
  | logicalRight hleft hmore => exact ⟨_, h.logicalRight (preserves S _) hleft hmore⟩
  | assigned => exact ⟨_, h.assigned⟩
  | callee => exact ⟨_, h.callee⟩
  | arguments hcallee => exact ⟨_, h.arguments (preserves S _) hcallee⟩
  | applied hcallee harguments hcallable =>
    exact ⟨_, h.applied (preserves S _) hcallee harguments hcallable⟩
  | firstValue => exact ⟨_, h.firstValue⟩
  | otherValues hfirst => exact ⟨_, h.otherValues (preserves S _) hfirst⟩
  | called hdepth => exact h.called hdepth
  | expression => exact ⟨_, h.expression⟩
  | print => exact ⟨_, h.print⟩
  | initializer => exact ⟨_, h.initializer⟩
  | block => exact ⟨_, h.block⟩
  | condition => exact ⟨_, h.condition⟩
  | thenBranch hcondition htruthy => exact ⟨_, h.thenBranch (preserves S _) hcondition htruthy⟩
  | elseBranch hcondition htruthy => exact ⟨_, h.elseBranch (preserves S _) hcondition htruthy⟩
  | loop => exact ⟨_, h.loop⟩
  | returned => exact ⟨_, h.returned⟩
  | turnCondition => exact ⟨_, h.turnCondition⟩
  | turnBody hcondition htruthy => exact ⟨_, h.turnBody (preserves S _) hcondition htruthy⟩
  | nextTurn hcondition htruthy hbody =>
    exact ⟨_, h.nextTurn (preserves S _) hcondition htruthy hbody⟩
  | firstInOrder => exact ⟨_, h.firstInOrder⟩
  | otherInOrder hfirst => exact ⟨_, h.otherInOrder (preserves S _) hfirst⟩
  | firstRun => exact ⟨_, h.firstRun⟩
  | otherRun hfirst => exact ⟨_, h.otherRun (preserves S _) hfirst⟩

end Lox.Survey
