import Lox.Proofs.Execution.Writing

namespace Lox

namespace Step

variable {α β : Type} {step : Step α} {next : α → Step β} {m m' : Machine} {a : α}

theorem after_bind_of_ok (h : step m = .ok a m') : (step >>= next).after m = (next a).after m' := by
  rw [after, bind_of_ok h, after]

/-- The frames that the first step has made are still there behind the second. -/
theorem precedes_bind (hnext : ∀ a, (next a).Evolves true) (m : Machine) :
    (step.after m).Precedes ((step >>= next).after m) := by
  cases hstep : step m with
  | ok a m' =>
    rw [after_bind_of_ok hstep, after, hstep]
    exact (hnext a m').precedes
  | error stop m' =>
    rw [after, after, bind_apply, hstep]
    exact .refl m'

/-- Whatever was there before the second step is there behind both. -/
theorem precedes_of_ok {m₀ : Machine} (h : step m = .ok a m')
    (hrest : m₀.Precedes ((next a).after m')) : m₀.Precedes ((step >>= next).after m) := by
  rwa [after_bind_of_ok h]

/-- A frame and a call that are left take nothing with them. -/
theorem precedes_inFrame {enclosing : FrameId} {bindings : List (String × Value)} (body : Step α)
    (m : Machine) : (body.after (m.entered enclosing bindings)).Precedes
      ((inFrame enclosing bindings body).after m) := by
  unfold after
  rw [inFrame_apply]
  cases body (m.entered enclosing bindings) <;> exact ⟨rfl, Nat.le_refl _, fun _ _ => rfl⟩

/-- A call takes back no frame that its body has made. -/
theorem precedes_asCall {paren : Token} (body : Step α) (hdepth : m.callDepth < maxCallDepth) :
    (body.after m.called).Precedes ((asCall paren body).after m) := by
  unfold after
  rw [asCall_apply_of_lt paren body hdepth]
  cases body m.called <;> exact ⟨rfl, Nat.le_refl _, fun _ _ => rfl⟩

end Step

namespace Point

variable {p q : Point}

theorem evolves (p : Point) : p.machine.Evolves true p.after := by
  obtain ⟨n, task, m⟩ := p
  obtain ⟨hevaluate, hcall, hexecute, hloop⟩ := Lox.evolves n
  cases task with
  | evaluate e => exact (hevaluate e m).weaken
  | values es => exact (Step.Evolves.values hevaluate es m).weaken
  | call f arguments paren => exact (hcall f arguments paren m).weaken
  | execute s => exact hexecute s m
  | loop condition body => exact hloop condition body m
  | inOrder body => exact Step.Evolves.inOrder hexecute body m
  | run program => exact evolves_runProgram n program m

/-- The frames that a task leaves are there behind the task that has handed it out. -/
theorem Enters.after_precedes (h : p.Enters q) : q.after.Precedes p.after := by
  have hevaluate (n : Nat) (e : Expr RefId) : (Lox.evaluate n e).Evolves true :=
    ((Lox.evolves n).1 e).weaken
  have hvalues (n : Nat) (es : List (Expr RefId)) :
      (Step.values (Lox.evaluate n) es).Evolves true := .values (hevaluate n) es
  have hcall (n : Nat) f arguments paren : (Lox.call n f arguments paren).Evolves true :=
    ((Lox.evolves n).2.1 f arguments paren).weaken
  have hexecute (n : Nat) := (Lox.evolves n).2.2.1
  have hloop (n : Nat) := (Lox.evolves n).2.2.2
  cases h with
  | grouping | loop => exact .refl _
  | operand => exact Step.precedes_bind (fun _ => .ofExcept _ _) _
  | binaryLeft =>
    exact Step.precedes_bind (fun _ => (hevaluate _ _).bind fun _ => .ofExcept _ _) _
  | binaryRight hleft =>
    refine Step.precedes_of_ok hleft ?_
    exact Step.precedes_bind (fun _ => .ofExcept _ _) _
  | logicalLeft =>
    refine Step.precedes_bind (fun value => ?_) _
    split
    · exact .pure _
    · exact hevaluate _ _
  | logicalRight hleft hmore =>
    refine Step.precedes_of_ok hleft ?_
    rw [hmore]
    exact .refl _
  | assigned =>
    exact Step.precedes_bind (fun _ => (Step.Evolves.assign _ _ _).bind fun _ => .pure _) _
  | callee =>
    exact Step.precedes_bind (fun _ => (hvalues _ _).bind fun _ =>
      (Step.Evolves.ofExcept _ _).bind fun _ => hcall _ _ _ _) _
  | arguments hcallee =>
    refine Step.precedes_of_ok hcallee ?_
    exact Step.precedes_bind (fun _ => (Step.Evolves.ofExcept _ _).bind fun _ => hcall _ _ _ _) _
  | applied hcallee harguments hcallable =>
    refine Step.precedes_of_ok hcallee (Step.precedes_of_ok harguments ?_)
    rw [hcallable]
    exact .refl _
  | firstValue => exact Step.precedes_bind (fun _ => (hvalues _ _).bind fun _ => .pure _) _
  | otherValues hfirst =>
    refine Step.precedes_of_ok hfirst ?_
    exact Step.precedes_bind (fun _ => .pure _) _
  | called hdepth =>
    refine Machine.Precedes.trans ?_ (Step.precedes_bind (fun _ => .pure _) _)
    exact (Step.precedes_inFrame _ _).trans (Step.precedes_asCall _ hdepth)
  | expression => exact Step.precedes_bind (fun _ => .pure _) _
  | print => exact Step.precedes_bind (fun _ => (Step.Evolves.print _).bind fun _ => .pure _) _
  | initializer =>
    exact Step.precedes_bind (fun _ => (Step.Evolves.define _ _).bind fun _ => .pure _) _
  | block =>
    refine Step.precedes_of_ok (Step.get_apply _) ?_
    exact Step.precedes_inFrame _ _
  | @condition n _ _ other _ =>
    refine Step.precedes_bind (fun value => ?_) _
    split
    · exact hexecute _ _
    · cases other with
      | none => exact .pure _
      | some s' => exact hexecute _ s'
  | thenBranch hcondition htruthy =>
    refine Step.precedes_of_ok hcondition ?_
    rw [if_pos htruthy]
    exact .refl _
  | elseBranch hcondition htruthy =>
    refine Step.precedes_of_ok hcondition ?_
    rw [if_neg (Bool.eq_false_iff.mp htruthy)]
    exact .refl _
  | returned => exact Step.precedes_bind (fun _ => .pure _) _
  | turnCondition =>
    refine Step.precedes_bind (fun value => ?_) _
    split
    · refine (hexecute _ _).bind fun flow => ?_
      cases flow with
      | normal => exact hloop _ _ _
      | returned => exact .pure _
    · exact .pure _
  | turnBody hcondition htruthy =>
    refine Step.precedes_of_ok hcondition ?_
    rw [if_pos htruthy]
    refine Step.precedes_bind (fun flow => ?_) _
    cases flow with
    | normal => exact hloop _ _ _
    | returned => exact .pure _
  | nextTurn hcondition htruthy hbody =>
    refine Step.precedes_of_ok hcondition ?_
    rw [if_pos htruthy]
    exact Step.precedes_of_ok hbody (.refl _)
  | firstInOrder =>
    refine Step.precedes_bind (fun flow => ?_) _
    cases flow with
    | normal => exact .inOrder (hexecute _) _
    | returned => exact .pure _
  | otherInOrder hfirst => exact Step.precedes_of_ok hfirst (.refl _)
  | firstRun => exact Step.precedes_bind (fun _ => evolves_runProgram _ _) _
  | otherRun hfirst => exact Step.precedes_of_ok hfirst (.refl _)

end Point

end Lox
