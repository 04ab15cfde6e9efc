import Lox.Proofs.Execution.Effect
import Lox.Proofs.Execution.Operation

/-!
Calls in progress. The tasks that a task hands out, and those that they hand out in turn, form
chains, and a call is in progress at a point if the chain to that point leads into its body. The
machine counts these calls. Where the count is full a further call stops at its own parenthesis,
and no run gets to a stack overflow in another way.
-/

namespace Lox

namespace Step

variable {α β : Type} {m : Machine} {t : Token}

/-- The step finds no room for the call with this parenthesis. -/
def Overflows (step : Step α) (m : Machine) (t : Token) : Prop :=
  step.stop? m = some (.error ⟨t, .stackOverflow⟩)

/-- A frame of its own does not change how a body is stopped. -/
theorem stop?_inFrame (enclosing : FrameId) (bindings : List (String × Value)) (body : Step α)
    (m : Machine) :
    (inFrame enclosing bindings body).stop? m = body.stop? (m.entered enclosing bindings) := by
  unfold stop?
  rw [inFrame_apply]
  cases body (m.entered enclosing bindings) <;> rfl

/-- Below the limit, counting a call does not change how its body stops. -/
theorem stop?_asCall (paren : Token) (body : Step α) (h : m.callDepth < maxCallDepth) :
    (asCall paren body).stop? m = body.stop? m.called := by
  unfold stop?
  rw [asCall_apply_of_lt paren body h]
  cases body m.called <;> rfl

/-- Nothing stops what is only returned. -/
theorem stop?_bind_pure (step : Step α) (result : α → β) (m : Machine) :
    (step >>= fun a => pure (result a)).stop? m = step.stop? m := by
  unfold stop?
  rw [bind_apply]
  cases step m <;> rfl

/-- The step can only stop in another way. -/
def NeverOverflows (step : Step α) : Prop :=
  ∀ m t, ¬ step.Overflows m t

namespace NeverOverflows

theorem pure (a : α) : (Pure.pure a : Step α).NeverOverflows := nofun

/-- A read that fails is not a stack overflow. -/
theorem reading (name : Token) (found : Option Value) :
    (Step.reading name found).NeverOverflows := by
  cases found with
  | none => exact nofun
  | some value => exact pure value

theorem lookUp (ref : RefId) (name : Token) : (Step.lookUp ref name).NeverOverflows := by
  intro m t h
  unfold Overflows stop? at h
  cases hentry : m.distances[ref]? with
  | none =>
    rw [lookUp_of_none hentry] at h
    exact reading name _ m t h
  | some distance =>
    rw [lookUp_of_some hentry] at h
    exact reading name _ m t h

theorem writing (name : Token) (written : Bool × Store) :
    (Step.writing name written).NeverOverflows := by
  intro m t h
  unfold Overflows stop? Step.writing at h
  cases hwritten : written.1 with
  | true => simp [hwritten] at h
  | false => simp [hwritten] at h

theorem assign (ref : RefId) (name : Token) (value : Value) :
    (Step.assign ref name value).NeverOverflows := by
  intro m t h
  unfold Overflows stop? at h
  cases hentry : m.distances[ref]? with
  | none =>
    rw [assign_of_none hentry] at h
    exact writing name _ m t h
  | some distance =>
    rw [assign_of_some hentry] at h
    exact writing name _ m t h

theorem ofExcept {result : Except RuntimeProblem α} (token : Token)
    (hresult : result ≠ .error .stackOverflow) : (Step.ofExcept token result).NeverOverflows := by
  cases result with
  | ok a => exact pure a
  | error problem =>
    intro m t h
    obtain ⟨-, rfl⟩ := RuntimeError.mk.inj (Stop.error.inj (Option.some.inj h))
    exact hresult rfl

theorem native (f : Native) (arguments : List Value) (paren : Token) :
    (f.call arguments paren).NeverOverflows := by
  unfold Native.call
  cases f.action with
  | clock | echo | ignore => exact nofun
  | fail => exact nofun

end NeverOverflows

end Step

theorem Operation.numbers_ne_stackOverflow {x y : Value} {result : Float → Float → Value} :
    numbers x y result ≠ .error .stackOverflow := by
  unfold numbers
  split <;> exact nofun

theorem Operation.unary_ne_stackOverflow {kind : Kind} {x : Value} :
    unary kind x ≠ .error .stackOverflow := by
  unfold unary
  split
  · split <;> exact nofun
  · exact nofun
  · exact nofun

/-- Operators fail for other reasons. -/
theorem Operation.binary_ne_stackOverflow {kind : Kind} {x y : Value} :
    binary kind x y ≠ .error .stackOverflow := by
  unfold binary
  split
  case h_1 =>
    unfold add
    split <;> exact nofun
  case h_9 | h_10 | h_11 => exact nofun
  all_goals exact numbers_ne_stackOverflow

/-- A value that cannot be called, or not so, fails for another reason. -/
theorem Value.callee_ne_stackOverflow (f : Value) (given : Nat) :
    f.callee given ≠ .error .stackOverflow := by
  unfold callee
  split
  · exact nofun
  · split <;> exact nofun

/-- There was no room for the call with this parenthesis. -/
def Effect.overflow (t : Token) : Effect where
  occurs _ _ stop := stop = some (.error ⟨t, .stackOverflow⟩)
  irrefl := nofun
  split := .inr
  leave := id

namespace Point

/-- The task at this point, or one that it hands out, finds no room for the call with this
    parenthesis. -/
def Overflows (p : Point) (t : Token) : Prop :=
  p.stop? = some (.error ⟨t, .stackOverflow⟩)

/-- The task at this point is a user call with this parenthesis, and there is no room for it. -/
inductive Full : Point → Token → Prop
  | mk {n : Nat} {f : Closure} {arguments : List Value} {paren : Token} {m : Machine}
      (hdepth : maxCallDepth ≤ m.callDepth) :
      Full ⟨n + 1, .call (.function f) arguments paren, m⟩ paren

variable {p q r : Point} {calls calls' : List Closure} {t : Token}

/-- Only a body that is entered adds to the count. -/
theorem Enters.callDepth (h : p.Enters q) :
    q.machine.callDepth = p.machine.callDepth + p.task.closure?.toList.length := by
  obtain ⟨hclosure, hevolves⟩ | ⟨body, htask, hm⟩ | ⟨f, arguments, paren, htask, -, hm⟩ :=
    h.machine_cases
  · rw [hclosure, hevolves.callDepth]
    rfl
  · rw [htask, hm]
    rfl
  · rw [htask, hm]
    rfl

/-- The machine counts the calls in progress. -/
theorem Reaches.callDepth (h : p.Reaches calls q) :
    q.machine.callDepth = p.machine.callDepth + calls.length := by
  induction h with
  | refl => rfl
  | enters _ henters ih =>
    have hstep := henters.callDepth
    rw [List.length_append]
    omega

/-- The count never exceeds the limit. -/
theorem Enters.callDepth_le (h : p.Enters q) (hle : p.machine.callDepth ≤ maxCallDepth) :
    q.machine.callDepth ≤ maxCallDepth := by
  obtain ⟨-, hevolves⟩ | ⟨body, -, hm⟩ | ⟨f, arguments, paren, -, hdepth, hm⟩ := h.machine_cases
  · exact hevolves.callDepth.trans_le hle
  · rw [hm]
    exact hle
  · rw [hm]
    exact hdepth

/-- The count of calls stays within the limit on all chains. -/
theorem Reaches.callDepth_le (h : p.Reaches calls q) (hle : p.machine.callDepth ≤ maxCallDepth) :
    q.machine.callDepth ≤ maxCallDepth := by
  induction h with
  | refl => exact hle
  | enters _ henters ih => exact henters.callDepth_le ih

variable {n : Nat} {m : Machine}

/-- A user call hands out its body, unless there is no room for it. -/
theorem stop?_call {f : Closure} (hdepth : m.callDepth < maxCallDepth) (arguments : List Value)
    (paren : Token) :
    stop? ⟨n + 1, .call (.function f) arguments paren, m⟩ =
      stop? ⟨n, .inOrder f.body, m.called.entered f.frame (f.bindings arguments)⟩ := by
  change (Step.asCall paren (Step.inFrame f.frame (f.bindings arguments)
    (.inOrder (execute n) f.body)) >>= fun flow => pure flow.value).stop? m = _
  rw [Step.stop?_bind_pure, Step.stop?_asCall paren _ hdepth, Step.stop?_inFrame]
  rfl

/-- The only step that finds no room for a call is the one that a full call takes. -/
theorem Acts.full_of_overflows {α : Type} {step : Step α} (h : p.Acts m step)
    (hoverflows : step.Overflows m t) : p.Full t := by
  cases h with
  | full hdepth =>
    cases hoverflows
    exact ⟨hdepth⟩
  | exhausted => cases hoverflows
  | unary =>
    exact absurd hoverflows (Step.NeverOverflows.ofExcept _ Operation.unary_ne_stackOverflow m t)
  | binary =>
    exact absurd hoverflows (Step.NeverOverflows.ofExcept _ Operation.binary_ne_stackOverflow m t)
  | callee =>
    exact absurd hoverflows
      (Step.NeverOverflows.ofExcept _ (Value.callee_ne_stackOverflow _ _) m t)
  | lookUp => exact absurd hoverflows (Step.NeverOverflows.lookUp _ _ m t)
  | assign => exact absurd hoverflows (Step.NeverOverflows.assign _ _ _ m t)
  | native => exact absurd hoverflows (Step.NeverOverflows.native _ _ _ m t)
  | called | print | declare | define | block | function => cases hoverflows

/-- A stack overflow has its origin at a user call for which there was no room. -/
theorem Overflows.exists_full (h : p.Overflows t) : ∃ calls q, p.Reaches calls q ∧ q.Full t := by
  have hat : (Effect.overflow t).At p := h
  obtain ⟨calls, q, m, α, step, hreaches, -, hacts, -, -, hstep⟩ :=
    Effect.exists_act (fun _ => True) (fun _ _ _ _ _ => trivial) trivial hat
  exact ⟨calls, q, hreaches, hacts.full_of_overflows hstep⟩

/-- A user call without room stops at its own parenthesis and changes nothing. -/
theorem Full.call_eq {f : Closure} {arguments : List Value} {paren : Token}
    (h : maxCallDepth ≤ m.callDepth) :
    call (n + 1) (.function f) arguments paren m = .error (.error ⟨paren, .stackOverflow⟩) m := by
  change (Step.asCall paren (Step.inFrame f.frame (f.bindings arguments)
    (.inOrder (execute n) f.body)) >>= fun flow => pure flow.value) m = _
  rw [Step.bind_apply, Step.asCall_apply_of_le paren _ h]

end Point

end Lox
