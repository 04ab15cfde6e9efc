import Lox.Proofs.Execution.Evolution

/-!
Fuel. It bounds how deep a run nests and decides about nothing else: a run that did not run out of
it ends in the same way with more. So a run has at most one end, which it comes to with enough.
-/

namespace Lox

namespace Step

variable {α β : Type}

/-- The other step does the same, unless this one runs out of fuel. -/
def Extends (step step' : Step α) : Prop :=
  ∀ m, step' m = step m ∨ ∃ m', step m = .error .outOfFuel m'

namespace Extends

theorem refl (step : Step α) : step.Extends step :=
  fun _ => .inl rfl

/-- A step that gives up may end in any way with more fuel. -/
theorem outOfFuel (step : Step α) : (throw .outOfFuel : Step α).Extends step :=
  fun m => .inr ⟨m, rfl⟩

theorem trans {step step' step'' : Step α} (h : step.Extends step') (h' : step'.Extends step'') :
    step.Extends step'' := by
  intro m
  rcases h m with hsame | hout
  · rw [← hsame]
    exact h' m
  · exact .inr hout

/-- It is enough that both parts end the same with more fuel. -/
theorem bind {step step' : Step α} {next next' : α → Step β} (h : step.Extends step')
    (hnext : ∀ a, (next a).Extends (next' a)) : (step >>= next).Extends (step' >>= next') := by
  intro m
  rw [bind_apply, bind_apply]
  rcases h m with hsame | ⟨m', hout⟩
  · rw [hsame]
    cases step m with
    | ok a m' => exact hnext a m'
    | error stop m' => exact .inl rfl
  · rw [hout]
    exact .inr ⟨m', rfl⟩

theorem inFrame {body body' : Step α} (h : body.Extends body') (enclosing : FrameId)
    (bindings : List (String × Value)) :
    (Step.inFrame enclosing bindings body).Extends (Step.inFrame enclosing bindings body') := by
  intro m
  rw [inFrame_apply, inFrame_apply]
  rcases h (m.entered enclosing bindings) with hsame | ⟨m', hout⟩
  · exact .inl (by rw [hsame])
  · rw [hout]
    exact .inr ⟨_, rfl⟩

theorem asCall {body body' : Step α} (h : body.Extends body') (paren : Token) :
    (Step.asCall paren body).Extends (Step.asCall paren body') := by
  intro m
  rcases Nat.lt_or_ge m.callDepth maxCallDepth with hdepth | hdepth
  · rw [asCall_apply_of_lt paren body hdepth, asCall_apply_of_lt paren body' hdepth]
    rcases h m.called with hsame | ⟨m', hout⟩
    · exact .inl (by rw [hsame])
    · rw [hout]
      exact .inr ⟨_, rfl⟩
  · rw [asCall_apply_of_le paren body hdepth, asCall_apply_of_le paren body' hdepth]
    exact .inl rfl

/-- It is enough that each argument is evaluated the same. -/
theorem values {evaluate evaluate' : Expr RefId → Step Value}
    (h : ∀ e, (evaluate e).Extends (evaluate' e)) (es : List (Expr RefId)) :
    (Step.values evaluate es).Extends (Step.values evaluate' es) := by
  induction es with
  | nil => exact refl _
  | cons e es ih => exact (h e).bind fun _ => ih.bind fun _ => refl _

/-- It is enough that each statement is executed the same. -/
theorem inOrder {run run' : Stmt RefId → Step Flow} (h : ∀ s, (run s).Extends (run' s))
    (body : List (Stmt RefId)) : (Step.inOrder run body).Extends (Step.inOrder run' body) := by
  induction body with
  | nil => exact refl _
  | cons s rest ih =>
    refine (h s).bind fun flow => ?_
    cases flow with
    | normal => exact ih
    | returned value => exact refl _

end Extends

end Step

/-- With one more unit of fuel, nothing ends differently. -/
structure Lasts (n : Nat) : Prop where
  evaluate : ∀ e, (evaluate n e).Extends (evaluate (n + 1) e)
  call : ∀ f arguments paren, (call n f arguments paren).Extends (call (n + 1) f arguments paren)
  execute : ∀ s, (execute n s).Extends (execute (n + 1) s)
  loop : ∀ condition body, (loop n condition body).Extends (loop (n + 1) condition body)

namespace Lasts

variable {n : Nat}

/-- Without fuel nothing ends, so there is nothing to keep. -/
theorem zero : Lasts 0 where
  evaluate _ := .outOfFuel _
  call _ _ _ := .outOfFuel _
  execute _ := .outOfFuel _
  loop _ _ := .outOfFuel _

/-- What is evaluated inside ends the same with one more unit. -/
theorem evaluate_succ (h : Lasts n) (e : Expr RefId) :
    (Lox.evaluate (n + 1) e).Extends (Lox.evaluate (n + 2) e) := by
  cases e with
  | literal => exact .refl _
  | grouping inner => exact h.evaluate inner
  | unary operator operand => exact (h.evaluate operand).bind fun _ => .refl _
  | binary left operator right =>
    exact (h.evaluate left).bind fun _ => (h.evaluate right).bind fun _ => .refl _
  | logical left operator right =>
    refine (h.evaluate left).bind fun value => ?_
    split
    · exact .refl _
    · exact h.evaluate right
  | var => exact .refl _
  | assign ref name value => exact (h.evaluate value).bind fun _ => .refl _
  | call callee paren arguments =>
    exact (h.evaluate callee).bind fun _ => (Step.Extends.values h.evaluate arguments).bind
      fun _ => (Step.Extends.refl _).bind fun _ => h.call _ _ _

theorem call_succ (h : Lasts n) (f : Callable) (arguments : List Value) (paren : Token) :
    (Lox.call (n + 1) f arguments paren).Extends (Lox.call (n + 2) f arguments paren) := by
  cases f with
  | native f => exact .refl _
  | function f =>
    have hbody := Step.Extends.inOrder h.execute f.body
    exact ((hbody.inFrame _ _).asCall _).bind fun _ => .refl _

theorem execute_succ (h : Lasts n) (s : Stmt RefId) :
    (Lox.execute (n + 1) s).Extends (Lox.execute (n + 2) s) := by
  cases s with
  | expression e => exact (h.evaluate e).bind fun _ => .refl _
  | print e => exact (h.evaluate e).bind fun _ => .refl _
  | var name initializer =>
    cases initializer with
    | none => exact .refl _
    | some e => exact (h.evaluate e).bind fun _ => .refl _
  | block body =>
    have hbody := Step.Extends.inOrder h.execute body
    exact (Step.Extends.refl _).bind fun _ => hbody.inFrame _ _
  | «if» condition thenBranch elseBranch =>
    refine (h.evaluate condition).bind fun value => ?_
    split
    · exact h.execute thenBranch
    · cases elseBranch with
      | none => exact .refl _
      | some elseBranch => exact h.execute elseBranch
  | «while» condition body => exact h.loop condition body
  | function => exact .refl _
  | «return» keyword value =>
    cases value with
    | none => exact .refl _
    | some e => exact (h.evaluate e).bind fun _ => .refl _

theorem loop_succ (h : Lasts n) (condition : Expr RefId) (body : Stmt RefId) :
    (Lox.loop (n + 1) condition body).Extends (Lox.loop (n + 2) condition body) := by
  refine (h.evaluate condition).bind fun value => ?_
  split
  · refine (h.execute body).bind fun flow => ?_
    cases flow with
    | normal => exact h.loop condition body
    | returned value => exact .refl _
  · exact .refl _

end Lasts

/-- Every task ends the same with one more unit of fuel. -/
theorem lasts (n : Nat) : Lasts n := by
  induction n with
  | zero => exact .zero
  | succ n ih => exact ⟨ih.evaluate_succ, ih.call_succ, ih.execute_succ, ih.loop_succ⟩

section More

variable {n k : Nat}

/-- With more fuel an expression ends as it did. -/
theorem evaluate_extends (hle : n ≤ k) (e : Expr RefId) :
    (evaluate n e).Extends (evaluate k e) := by
  induction hle with
  | refl => exact .refl _
  | step _ ih => exact ih.trans ((lasts _).evaluate e)

/-- With more fuel a statement ends as it did. -/
theorem execute_extends (hle : n ≤ k) (s : Stmt RefId) : (execute n s).Extends (execute k s) := by
  induction hle with
  | refl => exact .refl _
  | step _ ih => exact ih.trans ((lasts _).execute s)

/-- With more fuel a program ends as it did. -/
theorem runProgram_extends (hle : n ≤ k) (ss : List (Stmt RefId)) :
    (runProgram n ss).Extends (runProgram k ss) := by
  induction ss with
  | nil => exact .refl _
  | cons s ss ih => exact (execute_extends hle s).bind fun _ => ih

end More

section Termination

variable {α : Type} {run : Nat → Step α} {m : Machine} {bound : Nat}

/-- With enough fuel the run comes to an end, and with more to the same. -/
def Step.Terminates (run : Nat → Step α) (m : Machine) : Prop :=
  ∃ result, (∀ m', result ≠ .error .outOfFuel m') ∧ ∃ bound, ∀ fuel ≥ bound, run fuel m = result

/-- A run that had the fuel for it ends as it does with more. -/
theorem Step.eq_of_extends (h : ∀ n k, n ≤ k → (run n).Extends (run k))
    (hends : ∀ m', run bound m ≠ .error .outOfFuel m') :
    ∀ fuel ≥ bound, run fuel m = run bound m := by
  intro fuel hfuel
  rcases h bound fuel hfuel m with hsame | ⟨m', hout⟩
  · exact hsame
  · exact absurd hout (hends m')

/-- One end is enough: from there on all fuel leads to it. -/
theorem Step.terminates_of_extends (h : ∀ n k, n ≤ k → (run n).Extends (run k))
    (hends : ∀ m', run bound m ≠ .error .outOfFuel m') : Step.Terminates run m :=
  ⟨run bound m, hends, bound, Step.eq_of_extends h hends⟩

end Termination

end Lox
