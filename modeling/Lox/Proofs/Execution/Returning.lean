import Lox.Proofs.Execution.Calls

/-!
Where a `return` leads. It ends every statement around it, up to the call in progress, and what
would have come behind it is never handed out. Outside all functions scoping allows none, so there
every statement that ends well ends normally.
-/

namespace Lox

variable {ρ : Type}

mutual

/-- A `return` stands in the statement, outside of functions. -/
def Stmt.returns : Stmt ρ → Bool
  | .expression _ | .print _ | .var _ _ | .function _ _ _ => false
  | .block body => Stmt.returnsAny body
  | .if _ thenBranch none => thenBranch.returns
  | .if _ thenBranch (some elseBranch) => thenBranch.returns || elseBranch.returns
  | .while _ body => body.returns
  | .return _ _ => true

def Stmt.returnsAny : List (Stmt ρ) → Bool
  | [] => false
  | s :: rest => s.returns || Stmt.returnsAny rest

end

/-- Neither the first statement has a return nor any other. -/
theorem Stmt.returnsAny_cons {s : Stmt ρ} {rest : List (Stmt ρ)} :
    Stmt.returnsAny (s :: rest) = false ↔ s.returns = false ∧ Stmt.returnsAny rest = false := by
  rw [Stmt.returnsAny, Bool.or_eq_false_iff]

mutual

/-- Scoping reports every `return` outside of functions. -/
theorem Stmt.returns_of_findings {s : Stmt RefId} {scopes : List Scope}
    (h : (s.findings false scopes).1.errors = []) : s.returns = false := by
  cases s with
  | expression | print | var | function => rfl
  | block body => exact Stmt.returnsAny_of_findings h
  | «if» condition thenBranch elseBranch =>
    cases elseBranch with
    | none =>
      have hthen := (List.append_eq_nil_iff.mp h).2
      rw [Stmt.returns]
      exact Stmt.returns_of_findings hthen
    | some elseBranch =>
      obtain ⟨hthen, helse⟩ := List.append_eq_nil_iff.mp (List.append_eq_nil_iff.mp h).2
      rw [Stmt.returns, Stmt.returns_of_findings hthen, Stmt.returns_of_findings helse]
      rfl
  | «while» condition body =>
    have hbody := (List.append_eq_nil_iff.mp h).2
    rw [Stmt.returns]
    exact Stmt.returns_of_findings hbody
  | «return» keyword value =>
    cases value with
    | none => cases h
    | some e => cases (List.append_eq_nil_iff.mp h).1

/-- A program that scoping accepts has no return outside its functions. -/
theorem Stmt.returnsAny_of_findings {ss : List (Stmt RefId)} {scopes : List Scope}
    (h : (Stmt.findingsAll false scopes ss).1.errors = []) : Stmt.returnsAny ss = false := by
  cases ss with
  | nil => rfl
  | cons s rest =>
    obtain ⟨hfirst, hrest⟩ := List.append_eq_nil_iff.mp h
    exact Stmt.returnsAny_cons.mpr
      ⟨Stmt.returns_of_findings hfirst, Stmt.returnsAny_of_findings hrest⟩

end

namespace Step

variable {α : Type}

/-- The step returns nothing: if it ends well, it ends normally. -/
def NeverReturns (step : Step Flow) : Prop :=
  ∀ m flow m', step m = .ok flow m' → flow = .normal

namespace NeverReturns

theorem normal : (Pure.pure .normal : Step Flow).NeverReturns := by
  rintro m flow m' ⟨⟩
  rfl

theorem outOfFuel : (throw .outOfFuel : Step Flow).NeverReturns := nofun

/-- It is enough that the last step never returns. -/
theorem bind {step : Step α} {next : α → Step Flow} (h : ∀ a, (next a).NeverReturns) :
    (step >>= next).NeverReturns := by
  intro m flow m' hok
  obtain ⟨a, m₁, -, hnext⟩ := exists_of_bind_ok hok
  exact h a m₁ flow m' hnext

/-- What follows a step that returns nothing matters only where that step ends normally. -/
theorem bind_normal {step : Step Flow} {next : Flow → Step Flow} (h : step.NeverReturns)
    (hnext : (next .normal).NeverReturns) : (step >>= next).NeverReturns := by
  intro m flow m' hok
  obtain ⟨first, m₁, hstep, hrest⟩ := exists_of_bind_ok hok
  obtain rfl := h m first m₁ hstep
  exact hnext m₁ flow m' hrest

/-- A frame of its own does not make a body return. -/
theorem inFrame {enclosing : FrameId} {bindings : List (String × Value)} {body : Step Flow}
    (h : body.NeverReturns) : (Step.inFrame enclosing bindings body).NeverReturns := by
  intro m flow m' hok
  obtain ⟨m₁, hbody, -⟩ := exists_of_inFrame_ok hok
  exact h _ flow m₁ hbody

/-- Statements without a return never return, one after the other. -/
theorem inOrder {run : Stmt RefId → Step Flow} {ss : List (Stmt RefId)}
    (h : ∀ s, s.returns = false → (run s).NeverReturns) (hss : Stmt.returnsAny ss = false) :
    (Step.inOrder run ss).NeverReturns := by
  induction ss with
  | nil => exact normal
  | cons s ss ih =>
    obtain ⟨hs, hrest⟩ := Stmt.returnsAny_cons.mp hss
    exact (h s hs).bind_normal (ih hrest)

end NeverReturns

end Step

/-- Without a `return` of its own a statement returns nothing. The functions that are called on the
    way may well return: their values are values of expressions. -/
theorem neverReturns (n : Nat) :
    (∀ s, s.returns = false → (execute n s).NeverReturns) ∧
    ∀ condition body, body.returns = false → (loop n condition body).NeverReturns := by
  induction n with
  | zero => exact ⟨fun _ _ => .outOfFuel, fun _ _ _ => .outOfFuel⟩
  | succ n ih =>
    obtain ⟨hexecute, hloop⟩ := ih
    refine ⟨fun s hs => ?_, fun condition body hbody => ?_⟩
    · cases s with
      | expression e => exact .bind fun _ => .normal
      | print e => exact .bind fun _ => .bind fun _ => .normal
      | var name initializer =>
        cases initializer with
        | none => exact .bind fun _ => .normal
        | some e => exact .bind fun _ => .bind fun _ => .normal
      | block body => exact .bind fun m => .inFrame (.inOrder hexecute hs)
      | «if» condition thenBranch elseBranch =>
        refine .bind fun value => ?_
        cases elseBranch with
        | none =>
          split
          · exact hexecute thenBranch hs
          · exact .normal
        | some elseBranch =>
          obtain ⟨hthen, helse⟩ := Bool.or_eq_false_iff.mp hs
          split
          · exact hexecute thenBranch hthen
          · exact hexecute elseBranch helse
      | «while» condition body => exact hloop condition body hs
      | function name parameters body => exact .bind fun _ => .bind fun _ => .normal
      | «return» => cases hs
    · refine .bind fun value => ?_
      split
      · exact (hexecute body hbody).bind_normal (hloop condition body hbody)
      · exact .normal

/-- Where nothing returns, nothing is lost by going on behind statements however they end. -/
theorem runProgram_eq_inOrder {ss : List (Stmt RefId)} (h : Stmt.returnsAny ss = false) (n : Nat)
    (m : Machine) :
    runProgram n ss m = (Step.inOrder (execute n) ss >>= fun _ => pure ()) m := by
  induction ss generalizing m with
  | nil => rfl
  | cons s ss ih =>
    obtain ⟨hs, hrest⟩ := Stmt.returnsAny_cons.mp h
    rw [runProgram, Step.inOrder, Step.bind_apply, Step.bind_apply, Step.bind_apply]
    cases hfirst : execute n s m with
    | error stop m' => rfl
    | ok flow m' =>
      obtain rfl := (neverReturns n).1 s hs m flow m' hfirst
      exact (ih hrest m').trans (Step.bind_apply ..)

/-- Statements, in a row or alone, and the turns of a loop. -/
def Task.isStatements : Task → Bool
  | .execute _ | .inOrder _ | .loop _ _ => true
  | .evaluate _ | .values _ | .call _ _ _ | .run _ => false

namespace Point

/-- The second point is reached from the first through statements alone. From a call these are the
    statements of its own body, however deep in blocks, branches and loops. -/
inductive Contains (p : Point) : Point → Prop
  | refl : Contains p p
  | enters {q r : Point} (h : Contains p q) (henters : q.Enters r)
      (hstatements : r.task.isStatements) : Contains p r

/-- The statements at this point end with a `return` of the value, and leave this machine. -/
def Returns (p : Point) (value : Value) (m : Machine) : Prop :=
  match p.task with
  | .execute s => Lox.execute p.fuel s p.machine = .ok (.returned value) m
  | .inOrder body => Step.inOrder (Lox.execute p.fuel) body p.machine = .ok (.returned value) m
  | .loop condition body => Lox.loop p.fuel condition body p.machine = .ok (.returned value) m
  | _ => False

/-- What a task would do behind a part of it that has ended: the statements behind the first, or
    the next turn of a loop, from its condition on. -/
inductive Behind : Point → Point → Task → Prop
  | inOrder : Behind ⟨n, .inOrder (s :: rest), m⟩ ⟨n, .execute s, m⟩ (.inOrder rest)
  | loop : Behind ⟨n + 1, .loop e s, m⟩ ⟨n, .execute s, m'⟩ (.loop e s)

variable {p q r : Point} {value : Value} {m m' : Machine}

/-- What a statement that returns has done is done like that of any other. -/
theorem Returns.evolves (h : p.Returns value m) : p.machine.Evolves true m := by
  obtain ⟨n, task, m₀⟩ := p
  obtain ⟨-, -, hexecute, hloop⟩ := Lox.evolves n
  cases task with
  | execute s => exact (hexecute s).of_ok h
  | inOrder body => exact (Step.Evolves.inOrder hexecute body).of_ok h
  | loop condition body => exact (hloop condition body).of_ok h
  | evaluate | values | call | run => exact h.elim

/-- The statement around a `return` ends with it, back in its own frame. -/
theorem Enters.returns (h : p.Enters q) (hp : p.task.isStatements) (hq : q.Returns value m) :
    p.Returns value { m with environment := p.machine.environment } := by
  have hevolves := hq.evolves
  have hstays (hsame : q.machine.environment = p.machine.environment) :
      ({ m with environment := p.machine.environment } : Machine) = m := by
    rw [← hsame, ← hevolves.environment]
  have hevaluate {n e m₀ v m₁} (hok : Lox.evaluate n e m₀ = .ok v m₁) :
      m₁.environment = m₀.environment := (((Lox.evolves n).1 e).of_ok hok).environment
  have hexecute {n s m₀ flow m₁} (hok : Lox.execute n s m₀ = .ok flow m₁) :
      m₁.environment = m₀.environment := (((Lox.evolves n).2.2.1 s).of_ok hok).environment
  cases h with
  | @block n body m₀ =>
    change Step.inFrame m₀.environment [] (.inOrder (Lox.execute n) body) m₀ = _
    rw [Step.inFrame_apply, show Step.inOrder _ _ _ = _ from hq]
  | thenBranch hcondition htruthy =>
    rw [hstays (hevaluate hcondition)]
    refine (Step.bind_of_ok hcondition).trans ?_
    rw [if_pos htruthy]
    exact hq
  | elseBranch hcondition htruthy =>
    rw [hstays (hevaluate hcondition)]
    refine (Step.bind_of_ok hcondition).trans ?_
    rw [if_neg (Bool.eq_false_iff.mp htruthy)]
    exact hq
  | loop =>
    rw [hstays rfl]
    exact hq
  | turnBody hcondition htruthy =>
    rw [hstays (hevaluate hcondition)]
    refine (Step.bind_of_ok hcondition).trans ?_
    rw [if_pos htruthy]
    exact Step.bind_of_ok hq
  | nextTurn hcondition htruthy hbody =>
    rw [hstays ((hexecute hbody).trans (hevaluate hcondition))]
    refine (Step.bind_of_ok hcondition).trans ?_
    rw [if_pos htruthy]
    exact (Step.bind_of_ok hbody).trans hq
  | firstInOrder =>
    rw [hstays rfl]
    exact Step.bind_of_ok hq
  | otherInOrder hfirst =>
    rw [hstays (hexecute hfirst)]
    exact (Step.bind_of_ok hfirst).trans hq
  | expression | print | initializer | condition | returned | turnCondition => exact hq.elim
  | _ => cases hp

/-- Behind a part that returns a value nothing more is handed out. -/
theorem Behind.not_enters {task : Task} (h : p.Behind q task) (hpq : p.Enters q)
    (hq : q.Returns value m) : ¬ ∃ r, p.Enters r ∧ r.task = task := by
  rintro ⟨r, henters, htask⟩
  cases h with
  | inOrder =>
    have hreturned : Lox.execute _ _ _ = .ok (.returned value) m := hq
    cases henters with
    | firstInOrder => cases htask
    | otherInOrder hfirst => cases hreturned.symm.trans hfirst
  | loop =>
    have hreturned : Lox.execute _ _ _ = .ok (.returned value) m := hq
    cases hpq with
    | turnBody hcondition =>
      cases henters with
      | turnCondition | turnBody => cases htask
      | nextTurn hcondition' _ hbody =>
        cases hcondition.symm.trans hcondition'
        cases hreturned.symm.trans hbody

/-- Statements that return a value are a `return`, or one of their parts returns it. -/
theorem Returns.exists_part (h : p.Returns value m) :
    (∃ keyword e, p.task = .execute (.return keyword e)) ∨
      ∃ q m', p.Enters q ∧ q.task.isStatements ∧ q.Returns value m' ∧
        m = { m' with environment := p.machine.environment } := by
  have henvironment := h.evolves.environment
  have hsame : m = { m with environment := p.machine.environment } := by
    rw [← henvironment]
  have hnever {n s} (hs : s.returns = false)
      (hok : Lox.execute n s p.machine = .ok (.returned value) m) : False := by
    cases (neverReturns n).1 s hs _ _ _ hok
  obtain ⟨n, task, m₀⟩ := p
  cases task with
  | evaluate | values | call | run => exact h.elim
  | inOrder body =>
    cases body with
    | nil => cases h
    | cons s rest =>
      obtain ⟨flow, m₁, hfirst, hrest⟩ := Step.exists_of_bind_ok h
      cases flow with
      | normal => exact .inr ⟨_, m, .otherInOrder hfirst, rfl, hrest, hsame⟩
      | returned =>
        cases hrest
        exact .inr ⟨_, m, .firstInOrder, rfl, hfirst, hsame⟩
  | loop condition body =>
    cases n with
    | zero => cases h
    | succ n =>
      obtain ⟨test, m₁, hcondition, hrest⟩ := Step.exists_of_bind_ok h
      cases htruthy : test.isTruthy with
      | false =>
        simp only [htruthy, Bool.false_eq_true, if_false] at hrest
        cases hrest
      | true =>
        simp only [htruthy, if_true] at hrest
        obtain ⟨flow, m₂, hbody, hrest⟩ := Step.exists_of_bind_ok hrest
        cases flow with
        | normal => exact .inr ⟨_, m, .nextTurn hcondition htruthy hbody, rfl, hrest, hsame⟩
        | returned =>
          cases hrest
          exact .inr ⟨_, m, .turnBody hcondition htruthy, rfl, hbody, hsame⟩
  | execute s =>
    cases n with
    | zero => cases h
    | succ n =>
      cases s with
      | expression | print | var | function => exact (hnever rfl h).elim
      | «return» keyword e => exact .inl ⟨keyword, e, rfl⟩
      | «while» condition body => exact .inr ⟨_, m, .loop, rfl, h, hsame⟩
      | block body =>
        obtain ⟨m₁, hbody, rfl⟩ :=
          Step.exists_of_inFrame_ok (Step.bind_of_ok (Step.get_apply m₀) |>.symm.trans h)
        exact .inr ⟨_, m₁, .block, rfl, hbody, rfl⟩
      | «if» condition thenBranch elseBranch =>
        obtain ⟨test, m₁, hcondition, hrest⟩ := Step.exists_of_bind_ok h
        cases htruthy : test.isTruthy with
        | true =>
          simp only [htruthy, if_true] at hrest
          exact .inr ⟨_, m, .thenBranch hcondition htruthy, rfl, hrest, hsame⟩
        | false =>
          simp only [htruthy, Bool.false_eq_true, if_false] at hrest
          cases elseBranch with
          | none => cases hrest
          | some elseBranch => exact .inr ⟨_, m, .elseBranch hcondition htruthy, rfl, hrest, hsame⟩

/-- Inside statements there are statements, as long as no body of a function is entered. -/
theorem Contains.isStatements (h : p.Contains q) (hp : p.task.isStatements) :
    q.task.isStatements := by
  cases h with
  | refl => exact hp
  | enters _ _ hstatements => exact hstatements

/-- A return ends all statements around it, up to the body that it stands in. -/
theorem Contains.returns (h : p.Contains q) (hp : p.task.isStatements) (hq : q.Returns value m) :
    p.Returns value { m with environment := p.machine.environment } := by
  induction h generalizing m with
  | refl =>
    rw [← hq.evolves.environment]
    exact hq
  | enters hcontains henters _ ih =>
    have hreturns := ih (henters.returns (hcontains.isStatements hp) hq)
    exact hreturns

theorem Contains.head (henters : p.Enters q) (hq : q.task.isStatements) (h : q.Contains r) :
    p.Contains r := by
  induction h with
  | refl => exact .enters .refl henters hq
  | enters _ henters hstatements ih => exact .enters ih henters hstatements

/-- A value that statements return comes from a `return` among them. -/
theorem Returns.exists_return {p : Point} {m : Machine} (h : p.Returns value m) :
    ∃ q keyword e m', p.Contains q ∧ q.task = .execute (.return keyword e) ∧ q.Returns value m' ∧
      m = { m' with environment := p.machine.environment } := by
  obtain ⟨keyword, e, htask⟩ | ⟨q, m', henters, hstatements, hq, hm⟩ := h.exists_part
  · refine ⟨p, keyword, e, m, .refl, htask, h, ?_⟩
    rw [← h.evolves.environment]
  · obtain ⟨r, keyword, e, m'', hcontains, htask, hr, rfl⟩ := hq.exists_return
    exact ⟨r, keyword, e, m'', hcontains.head henters hstatements, htask, hr, hm⟩
termination_by (p.fuel, p.task.parts)
decreasing_by exact henters.decreases

section Call

/-- The statements of a function, where a call of it begins with them. -/
def bodyOf (n : Nat) (f : Closure) (arguments : List Value) (m : Machine) : Point :=
  ⟨n, .inOrder f.body, m.called.entered f.frame (f.bindings arguments)⟩

variable {n : Nat} {f : Closure} {arguments : List Value} {paren : Token}

/-- The call has the value that its body returns. -/
theorem call_eq_of_returns (paren : Token) (hdepth : m.callDepth < maxCallDepth)
    (h : (bodyOf n f arguments m).Returns value m') :
    call (n + 1) (.function f) arguments paren m =
      .ok value { m' with environment := m.environment, callDepth := m.callDepth } := by
  have hcount : m'.callDepth = m.callDepth + 1 := h.evolves.callDepth
  have hbody : Step.inOrder (Lox.execute n) f.body
      (m.called.entered f.frame (f.bindings arguments)) = .ok (.returned value) m' := h
  have hframe : Step.inFrame f.frame (f.bindings arguments) (.inOrder (Lox.execute n) f.body)
      m.called = .ok (.returned value) { m' with environment := m.environment } := by
    rw [Step.inFrame_apply, hbody]
    rfl
  have hcall : Step.asCall paren (Step.inFrame f.frame (f.bindings arguments)
      (.inOrder (Lox.execute n) f.body)) m = .ok (.returned value)
        { m' with environment := m.environment, callDepth := m.callDepth } := by
    rw [Step.asCall_apply_of_lt paren _ hdepth, hframe, hcount]
    rfl
  exact Step.bind_of_ok hcall

/-- A call has the value that its body returns, or none is returned and it has no value to speak
    of. -/
theorem returns_or_normal_of_call
    (h : call (n + 1) (.function f) arguments paren m = .ok value m') :
    m.callDepth < maxCallDepth ∧ ((∃ m₁, (bodyOf n f arguments m).Returns value m₁ ∧
        m' = { m₁ with environment := m.environment, callDepth := m.callDepth }) ∨
      value = .nil ∧ ∃ m₁, Step.inOrder (Lox.execute n) f.body
        (m.called.entered f.frame (f.bindings arguments)) = .ok .normal m₁) := by
  obtain ⟨flow, m₀, hcall, hvalue⟩ := Step.exists_of_bind_ok h
  obtain ⟨m₁, hdepth, hframe, rfl⟩ := Step.exists_of_asCall_ok hcall
  obtain ⟨m₂, hbody, rfl⟩ := Step.exists_of_inFrame_ok hframe
  refine ⟨hdepth, ?_⟩
  cases hvalue
  cases flow with
  | normal => exact .inr ⟨rfl, m₂, hbody⟩
  | returned value =>
    have hreturns : (bodyOf n f arguments m).Returns value m₂ := hbody
    have hcount : m₂.callDepth = m.callDepth + 1 := hreturns.evolves.callDepth
    refine .inl ⟨m₂, hreturns, ?_⟩
    rw [hcount]
    rfl

end Call

end Point

end Lox
