import Lox.Proofs.Execution.Point

/-!
Where the effects of a task come from. A task does little itself; the rest is done by the tasks that
it hands out. So whatever can be told from the machine before and after a task, and did not come
about step by step unnoticed, was brought about by one elementary step, at some point that the task
leads to, and nothing of the kind had happened there before.
-/

namespace Lox

/-- The function whose body a task carries out, if it is a call of one. -/
def Task.closure? : Task → Option Closure
  | .call (.function f) _ _ => some f
  | _ => none

/-- The parts of a list are carried out with the fuel of the list. -/
def Task.parts : Task → Nat
  | .values es => es.length + 1
  | .inOrder body => body.length + 1
  | .run program => program.length + 1
  | _ => 0

namespace Step

variable {α β : Type}

/-- Why a step has no value on a machine. -/
def stop? (step : Step α) (m : Machine) : Option Stop :=
  match step m with
  | .ok _ _ => none
  | .error stop _ => some stop

end Step

namespace Point

/-- Why the task at this point has no value. -/
def stop? (p : Point) : Option Stop :=
  match p.task with
  | .evaluate e => (Lox.evaluate p.fuel e).stop? p.machine
  | .values es => (Step.values (Lox.evaluate p.fuel) es).stop? p.machine
  | .call f arguments paren => (Lox.call p.fuel f arguments paren).stop? p.machine
  | .execute s => (Lox.execute p.fuel s).stop? p.machine
  | .loop condition body => (Lox.loop p.fuel condition body).stop? p.machine
  | .inOrder body => (Step.inOrder (Lox.execute p.fuel) body).stop? p.machine
  | .run program => (runProgram p.fuel program).stop? p.machine

/-- The machine behind the task at this point, whether or not there is a value. -/
def after (p : Point) : Machine :=
  match p.task with
  | .evaluate e => (Lox.evaluate p.fuel e).after p.machine
  | .values es => (Step.values (Lox.evaluate p.fuel) es).after p.machine
  | .call f arguments paren => (Lox.call p.fuel f arguments paren).after p.machine
  | .execute s => (Lox.execute p.fuel s).after p.machine
  | .loop condition body => (Lox.loop p.fuel condition body).after p.machine
  | .inOrder body => (Step.inOrder (Lox.execute p.fuel) body).after p.machine
  | .run program => (runProgram p.fuel program).after p.machine

/-- The second point is handed out from the first, through any number of tasks. These are the
    functions whose bodies are carried out on the way there, the innermost first. -/
inductive Reaches (p : Point) : List Closure → Point → Prop
  | refl : Reaches p [] p
  | enters {calls : List Closure} {q r : Point} (h : Reaches p calls q) (henters : q.Enters r) :
      Reaches p (q.task.closure?.toList ++ calls) r

/-- The step is what the task at this point does itself, on the machine as it is then. -/
inductive Acts : Point → Machine → {α : Type} → Step α → Prop
  | exhausted {task : Task} (hparts : task.parts = 0) :
      Acts ⟨0, task, m⟩ m (throw .outOfFuel : Step Unit)
  | unary {operator : Token} (hoperand : evaluate n e m = .ok value m') :
      Acts ⟨n + 1, .evaluate (.unary operator e), m⟩ m'
        (.ofExcept operator (Operation.unary operator.kind value))
  | binary {operator : Token} (hleft : evaluate n left m = .ok value m')
      (hright : evaluate n right m' = .ok value' m'') :
      Acts ⟨n + 1, .evaluate (.binary left operator right), m⟩ m''
        (.ofExcept operator (Operation.binary operator.kind value value'))
  | lookUp : Acts ⟨n + 1, .evaluate (.var ref name), m⟩ m (.lookUp ref name)
  | assign (hvalue : evaluate n e m = .ok value m') :
      Acts ⟨n + 1, .evaluate (.assign ref name e), m⟩ m' (.assign ref name value)
  | callee (hcallee : evaluate n e m = .ok value m')
      (harguments : Step.values (evaluate n) arguments m' = .ok values m'') :
      Acts ⟨n + 1, .evaluate (.call e paren arguments), m⟩ m''
        (.ofExcept paren (value.callee values.length))
  | native : Acts ⟨n + 1, .call (.native f) arguments paren, m⟩ m (f.call arguments paren)
  | full {m : Machine} {f : Closure} (hdepth : maxCallDepth ≤ m.callDepth) :
      Acts ⟨n + 1, .call (.function f) arguments paren, m⟩ m
        (.fail paren .stackOverflow : Step Value)
  | called {m : Machine} {f : Closure} (hdepth : m.callDepth < maxCallDepth) :
      Acts ⟨n + 1, .call (.function f) arguments paren, m⟩ m
        (modify fun m => m.called.entered f.frame (f.bindings arguments) : Step Unit)
  | print (hvalue : evaluate n e m = .ok value m') :
      Acts ⟨n + 1, .execute (.print e), m⟩ m' (.print value)
  | declare : Acts ⟨n + 1, .execute (.var name none), m⟩ m (.define name .nil)
  | define (hvalue : evaluate n e m = .ok value m') :
      Acts ⟨n + 1, .execute (.var name (some e)), m⟩ m' (.define name value)
  | block :
      Acts ⟨n + 1, .execute (.block body), m⟩ m
        (modify fun m => m.entered m.environment [] : Step Unit)
  | function :
      Acts ⟨n + 1, .execute (.function name parameters body), m⟩ m
        (.makeFunction name parameters body >>= .define name)

variable {p q r : Point} {calls calls' : List Closure}

/-- Chains of tasks can be joined, and so can the calls on them. -/
theorem Reaches.trans (h : p.Reaches calls q) (h' : q.Reaches calls' r) :
    p.Reaches (calls' ++ calls) r := by
  induction h' with
  | refl => exact h
  | enters _ henters ih =>
    rw [List.append_assoc]
    exact ih.enters henters

/-- A task hands out tasks with less fuel, or a part of a list. -/
theorem Enters.decreases (h : p.Enters q) :
    Prod.Lex (· < ·) (· < ·) (q.fuel, q.task.parts) (p.fuel, p.task.parts) := by
  cases h with
  | firstValue | otherValues | firstInOrder | otherInOrder | firstRun | otherRun =>
    exact .right _ (by simp [Task.parts])
  | _ => exact .left _ _ (Nat.lt_succ_self _)

/-- A task is carried out in the frame of the task that hands it out, on the machine that the tasks
    before it have left, or it has a new frame: that of a block or of a call. -/
theorem Enters.machine_cases (h : p.Enters q) :
    (p.task.closure? = none ∧ p.machine.Evolves true q.machine) ∨
      (∃ body, p.task = .execute (.block body) ∧
        q.machine = p.machine.entered p.machine.environment []) ∨
      ∃ f arguments paren, p.task = .call (.function f) arguments paren ∧
        p.machine.callDepth < maxCallDepth ∧
        q.machine = p.machine.called.entered f.frame (f.bindings arguments) := by
  have hevaluate {n e m value m'} (hok : evaluate n e m = .ok value m') : m.Evolves true m' :=
    (((evolves n).1 e).of_ok hok).weaken
  have hexecute {n s m flow m'} (hok : execute n s m = .ok flow m') : m.Evolves true m' :=
    ((evolves n).2.2.1 s).of_ok hok
  cases h with
  | called hdepth => exact .inr (.inr ⟨_, _, _, rfl, hdepth, rfl⟩)
  | block => exact .inr (.inl ⟨_, rfl, rfl⟩)
  | applied hcallee harguments =>
    have hvalues := (Step.Evolves.values (evolves _).1 _).of_ok harguments
    exact .inl ⟨rfl, (hevaluate hcallee).trans hvalues.weaken⟩
  | binaryRight hok | logicalRight hok | arguments hok | otherValues hok =>
    exact .inl ⟨rfl, hevaluate hok⟩
  | thenBranch hok | elseBranch hok | turnBody hok => exact .inl ⟨rfl, hevaluate hok⟩
  | nextTurn hcondition _ hbody => exact .inl ⟨rfl, (hevaluate hcondition).trans (hexecute hbody)⟩
  | otherInOrder hok | otherRun hok => exact .inl ⟨rfl, hexecute hok⟩
  | _ => exact .inl ⟨rfl, .refl _⟩

end Point

/-- What can be told from the machine before and behind a step, and from why the step had no value.
    Of two steps in a row it shows in one if it shows in both together. -/
structure Effect where
  occurs : Machine → Machine → Option Stop → Prop
  irrefl : ∀ m, ¬ occurs m m none
  split : ∀ {m m' m'' stop}, occurs m m'' stop → occurs m m' none ∨ occurs m' m'' stop
  /-- It does not matter which frame is left, and whether a call is. -/
  leave : ∀ {m m' : Machine} {environment callDepth stop},
    occurs m { m' with environment, callDepth } stop → occurs m m' stop

namespace Effect

variable {T : Effect} {α β : Type} {m m' m'' : Machine}

def Of (T : Effect) (step : Step α) (m : Machine) : Prop :=
  T.occurs m (step.after m) (step.stop? m)

def At (T : Effect) (p : Point) : Prop :=
  T.occurs p.machine p.after p.stop?

/-- The effect is one of the task itself, or of a task that it hands out, and has not shown before
    that. -/
def Traced (T : Effect) (p : Point) : Prop :=
  (∃ m α, ∃ step : Step α, p.Acts m step ∧ ¬ T.occurs p.machine m none ∧ T.Of step m) ∨
    ∃ q, p.Enters q ∧ ¬ T.occurs p.machine q.machine none ∧ T.At q

theorem trans (h : ¬ T.occurs m m' none) (h' : ¬ T.occurs m' m'' none) : ¬ T.occurs m m'' none :=
  fun hboth => (T.split hboth).elim h h'

/-- What happens in two steps together happens in one of them. -/
theorem of_bind {step : Step α} {next : α → Step β} (h : T.Of (step >>= next) m) :
    T.Of step m ∨ ∃ a m', step m = .ok a m' ∧ ¬ T.occurs m m' none ∧ T.Of (next a) m' := by
  unfold Of Step.after Step.stop? at h ⊢
  rw [Step.bind_apply] at h
  cases hstep : step m with
  | ok a m' =>
    rw [hstep] at h
    by_cases hfirst : T.occurs m m' none
    · exact .inl hfirst
    · exact .inr ⟨a, m', rfl, hfirst, (T.split h).resolve_left hfirst⟩
  | error stop m' =>
    rw [hstep] at h
    exact .inl h

theorem of_bind_pure {step : Step α} (result : α → β)
    (h : T.Of (step >>= fun a => pure (result a)) m) : T.Of step m := by
  obtain hstep | ⟨a, m', -, -, hpure⟩ := of_bind h
  · exact hstep
  · exact absurd hpure (T.irrefl m')

/-- What can be told behind a frame could be told in it: the effect does not depend on which frame
    is current. -/
theorem of_inFrame {enclosing : FrameId} {bindings : List (String × Value)} {body : Step α}
    (h : T.occurs m ((Step.inFrame enclosing bindings body).after m')
      ((Step.inFrame enclosing bindings body).stop? m')) :
    T.occurs m (body.after (m'.entered enclosing bindings))
      (body.stop? (m'.entered enclosing bindings)) := by
  unfold Step.after Step.stop? at h ⊢
  rw [Step.inFrame_apply] at h
  cases hbody : body (m'.entered enclosing bindings) with
  | ok a m'' | error stop m'' =>
    rw [hbody] at h
    exact T.leave h

/-- What happens in a call happens in its body. -/
theorem of_asCall {paren : Token} {body : Step α} (hdepth : m.callDepth < maxCallDepth)
    (h : T.Of (Step.asCall paren body) m) :
    T.occurs m (body.after m.called) (body.stop? m.called) := by
  unfold Of Step.after Step.stop? at h
  unfold Step.after Step.stop?
  rw [Step.asCall_apply_of_lt paren body hdepth] at h
  cases hbody : body m.called with
  | ok a m' | error stop m' =>
    rw [hbody] at h
    exact T.leave h

variable {n : Nat}

/-- What an expression does, one of its parts does, or it is an elementary step of its own. -/
theorem traced_evaluate {e : Expr RefId} (h : T.At ⟨n, .evaluate e, m⟩) :
    T.Traced ⟨n, .evaluate e, m⟩ := by
  cases n with
  | zero => exact .inl ⟨m, Unit, _, .exhausted rfl, T.irrefl m, h⟩
  | succ n =>
    cases e with
    | literal => exact absurd h (T.irrefl m)
    | grouping inner => exact .inr ⟨_, .grouping, T.irrefl m, h⟩
    | unary operator operand =>
      obtain hoperand | ⟨value, m', hok, hquiet, hrest⟩ := of_bind h
      · exact .inr ⟨_, .operand, T.irrefl m, hoperand⟩
      · exact .inl ⟨_, _, _, .unary hok, hquiet, hrest⟩
    | binary left operator right =>
      obtain hleft | ⟨value, m', hok, hquiet, hrest⟩ := of_bind h
      · exact .inr ⟨_, .binaryLeft, T.irrefl m, hleft⟩
      obtain hright | ⟨value', m'', hok', hquiet', hrest⟩ := of_bind hrest
      · exact .inr ⟨_, .binaryRight hok, hquiet, hright⟩
      · exact .inl ⟨_, _, _, .binary hok hok', trans hquiet hquiet', hrest⟩
    | logical left operator right =>
      obtain hleft | ⟨value, m', hok, hquiet, hrest⟩ := of_bind h
      · exact .inr ⟨_, .logicalLeft, T.irrefl m, hleft⟩
      cases hmore : Operation.shortCircuits operator.kind value with
      | true =>
        simp only [hmore, if_true] at hrest
        exact absurd hrest (T.irrefl m')
      | false =>
        simp only [hmore, Bool.false_eq_true, if_false] at hrest
        exact .inr ⟨_, .logicalRight hok hmore, hquiet, hrest⟩
    | var ref name => exact .inl ⟨_, _, _, .lookUp, T.irrefl m, h⟩
    | assign ref name e =>
      obtain hvalue | ⟨value, m', hok, hquiet, hrest⟩ := of_bind h
      · exact .inr ⟨_, .assigned, T.irrefl m, hvalue⟩
      · exact .inl ⟨_, _, _, .assign hok, hquiet, of_bind_pure (fun _ => value) hrest⟩
    | call callee paren arguments =>
      obtain hcallee | ⟨value, m', hok, hquiet, hrest⟩ := of_bind h
      · exact .inr ⟨_, .callee, T.irrefl m, hcallee⟩
      obtain harguments | ⟨values, m'', hvalues, hquiet', hrest⟩ := of_bind hrest
      · exact .inr ⟨_, .arguments hok, hquiet, harguments⟩
      have hbefore := trans hquiet hquiet'
      obtain hcallable | ⟨f, m₁, hcallable, -, hcall⟩ := of_bind hrest
      · exact .inl ⟨_, _, _, .callee hok hvalues, hbefore, hcallable⟩
      cases hf : value.callee values.length with
      | error problem =>
        rw [hf] at hcallable
        cases hcallable
      | ok g =>
        rw [hf] at hcallable
        cases hcallable
        exact .inr ⟨_, .applied hok hvalues hf, hbefore, hcall⟩

theorem traced_values {es : List (Expr RefId)} (h : T.At ⟨n, .values es, m⟩) :
    T.Traced ⟨n, .values es, m⟩ := by
  cases es with
  | nil => exact absurd h (T.irrefl m)
  | cons e es =>
    obtain hfirst | ⟨value, m', hok, hquiet, hrest⟩ := of_bind h
    · exact .inr ⟨_, .firstValue, T.irrefl m, hfirst⟩
    · exact .inr ⟨_, .otherValues hok, hquiet, of_bind_pure (value :: ·) hrest⟩

/-- What a call does, the body does that it runs. -/
theorem traced_call {f : Callable} {arguments : List Value} {paren : Token}
    (h : T.At ⟨n, .call f arguments paren, m⟩) : T.Traced ⟨n, .call f arguments paren, m⟩ := by
  cases n with
  | zero => exact .inl ⟨m, Unit, _, .exhausted rfl, T.irrefl m, h⟩
  | succ n =>
    cases f with
    | native f => exact .inl ⟨_, _, _, .native, T.irrefl m, h⟩
    | function f =>
      have hcall : T.Of (Step.asCall paren (Step.inFrame f.frame (f.bindings arguments)
          (Step.inOrder (execute n) f.body))) m := of_bind_pure Flow.value h
      by_cases hdepth : m.callDepth < maxCallDepth
      · have hbody := of_inFrame (of_asCall hdepth hcall)
        by_cases hentered : T.occurs m (m.called.entered f.frame (f.bindings arguments)) none
        · exact .inl ⟨_, _, _, .called hdepth, T.irrefl m, hentered⟩
        · exact .inr ⟨_, .called hdepth, hentered, (T.split hbody).resolve_left hentered⟩
      · have hfull := Nat.le_of_not_lt hdepth
        unfold Of Step.after Step.stop? at hcall
        rw [Step.asCall_apply_of_le paren _ hfull] at hcall
        exact .inl ⟨_, Value, _, .full hfull, T.irrefl m, hcall⟩

/-- What a statement does, one of its parts does, or it is an elementary step of its own. -/
theorem traced_execute {s : Stmt RefId} (h : T.At ⟨n, .execute s, m⟩) :
    T.Traced ⟨n, .execute s, m⟩ := by
  cases n with
  | zero => exact .inl ⟨m, Unit, _, .exhausted rfl, T.irrefl m, h⟩
  | succ n =>
    cases s with
    | expression e => exact .inr ⟨_, .expression, T.irrefl m, of_bind_pure (fun _ => Flow.normal) h⟩
    | print e =>
      obtain hvalue | ⟨value, m', hok, hquiet, hrest⟩ := of_bind h
      · exact .inr ⟨_, .print, T.irrefl m, hvalue⟩
      · exact .inl ⟨_, _, _, .print hok, hquiet, of_bind_pure (fun _ => Flow.normal) hrest⟩
    | var name initializer =>
      cases initializer with
      | none => exact .inl ⟨_, _, _, .declare, T.irrefl m, of_bind_pure (fun _ => Flow.normal) h⟩
      | some e =>
        obtain hvalue | ⟨value, m', hok, hquiet, hrest⟩ := of_bind h
        · exact .inr ⟨_, .initializer, T.irrefl m, hvalue⟩
        · exact .inl ⟨_, _, _, .define hok, hquiet, of_bind_pure (fun _ => Flow.normal) hrest⟩
    | block body =>
      have hbody := of_inFrame (m := m) h
      by_cases hentered : T.occurs m (m.entered m.environment []) none
      · exact .inl ⟨_, _, _, .block, T.irrefl m, hentered⟩
      · exact .inr ⟨_, .block, hentered, (T.split hbody).resolve_left hentered⟩
    | «if» condition thenBranch elseBranch =>
      obtain hcondition | ⟨value, m', hok, hquiet, hrest⟩ := of_bind h
      · exact .inr ⟨_, .condition, T.irrefl m, hcondition⟩
      cases htruthy : value.isTruthy with
      | true =>
        simp only [htruthy, if_true] at hrest
        exact .inr ⟨_, .thenBranch hok htruthy, hquiet, hrest⟩
      | false =>
        simp only [htruthy, Bool.false_eq_true, if_false] at hrest
        cases elseBranch with
        | none => exact absurd hrest (T.irrefl m')
        | some elseBranch => exact .inr ⟨_, .elseBranch hok htruthy, hquiet, hrest⟩
    | «while» condition body => exact .inr ⟨_, .loop, T.irrefl m, h⟩
    | function name parameters body =>
      have hboth : T.Of ((Step.makeFunction name parameters body >>= Step.define name) >>=
          fun _ => pure Flow.normal) m := h
      exact .inl ⟨_, _, _, .function, T.irrefl m, of_bind_pure _ hboth⟩
    | «return» keyword value =>
      cases value with
      | none => exact absurd h (T.irrefl m)
      | some e => exact .inr ⟨_, .returned, T.irrefl m, of_bind_pure Flow.returned h⟩

/-- What a loop does, one of its turns does. -/
theorem traced_loop {condition : Expr RefId} {body : Stmt RefId}
    (h : T.At ⟨n, .loop condition body, m⟩) : T.Traced ⟨n, .loop condition body, m⟩ := by
  cases n with
  | zero => exact .inl ⟨m, Unit, _, .exhausted rfl, T.irrefl m, h⟩
  | succ n =>
    obtain hcondition | ⟨value, m', hok, hquiet, hrest⟩ := of_bind h
    · exact .inr ⟨_, .turnCondition, T.irrefl m, hcondition⟩
    cases htruthy : value.isTruthy with
    | false =>
      simp only [htruthy, Bool.false_eq_true, if_false] at hrest
      exact absurd hrest (T.irrefl m')
    | true =>
      simp only [htruthy, if_true] at hrest
      obtain hbody | ⟨flow, m'', hok', hquiet', hrest⟩ := of_bind hrest
      · exact .inr ⟨_, .turnBody hok htruthy, hquiet, hbody⟩
      cases flow with
      | normal => exact .inr ⟨_, .nextTurn hok htruthy hok', trans hquiet hquiet', hrest⟩
      | returned value => exact absurd hrest (T.irrefl m'')

theorem traced_inOrder {body : List (Stmt RefId)} (h : T.At ⟨n, .inOrder body, m⟩) :
    T.Traced ⟨n, .inOrder body, m⟩ := by
  cases body with
  | nil => exact absurd h (T.irrefl m)
  | cons s rest =>
    obtain hfirst | ⟨flow, m', hok, hquiet, hrest⟩ := of_bind h
    · exact .inr ⟨_, .firstInOrder, T.irrefl m, hfirst⟩
    cases flow with
    | normal => exact .inr ⟨_, .otherInOrder hok, hquiet, hrest⟩
    | returned value => exact absurd hrest (T.irrefl m')

theorem traced_run {program : List (Stmt RefId)} (h : T.At ⟨n, .run program, m⟩) :
    T.Traced ⟨n, .run program, m⟩ := by
  cases program with
  | nil => exact absurd h (T.irrefl m)
  | cons s rest =>
    obtain hfirst | ⟨flow, m', hok, hquiet, hrest⟩ := of_bind h
    · exact .inr ⟨_, .firstRun, T.irrefl m, hfirst⟩
    · exact .inr ⟨_, .otherRun hok, hquiet, hrest⟩

/-- An effect of a task is traced one task further. -/
theorem traced {p : Point} (h : T.At p) : T.Traced p := by
  obtain ⟨n, task, m⟩ := p
  cases task with
  | evaluate e => exact traced_evaluate h
  | values es => exact traced_values h
  | call f arguments paren => exact traced_call h
  | execute s => exact traced_execute h
  | loop condition body => exact traced_loop h
  | inOrder body => exact traced_inOrder h
  | run program => exact traced_run h

/-- An effect of a task has its origin in one step, at a point to which the task leads. Until then
    it has not shown, so whatever such tasks keep on their way to one another holds there. -/
theorem exists_act (holds : Point → Prop)
    (hkeeps : ∀ p q, holds p → p.Enters q → ¬ T.occurs p.machine q.machine none → holds q)
    {p : Point} (hp : holds p) (h : T.At p) :
    ∃ calls q m α, ∃ step : Step α, p.Reaches calls q ∧ holds q ∧ q.Acts m step ∧
      ¬ T.occurs p.machine m none ∧ ¬ T.occurs q.machine m none ∧ T.Of step m := by
  obtain ⟨m, α, step, hacts, hquiet, hstep⟩ | ⟨q, henters, hquiet, hq⟩ := traced h
  · exact ⟨[], p, m, α, step, .refl, hp, hacts, hquiet, hquiet, hstep⟩
  · obtain ⟨calls, r, m, α, step, hreaches, hr, hacts, hquiet', hlast, hstep⟩ :=
      exists_act holds hkeeps (hkeeps p q hp henters hquiet) hq
    exact ⟨_, r, m, α, step, Point.Reaches.trans (.enters .refl henters) hreaches, hr, hacts,
      trans hquiet hquiet', hlast, hstep⟩
termination_by (p.fuel, p.task.parts)
decreasing_by exact henters.decreases

end Effect

end Lox
