import Lox.Proofs.Execution.Evolution

namespace Lox

/-- On every machine, what the step prints stands behind what was printed before. So what a run had
    printed where it was cut off is the beginning of what it prints if it goes on. -/
class Step.Grows {α : Type} (step : Step α) : Prop where
  grows : ∀ m : Machine, ∃ printed, (step.after m).output = m.output ++ printed

theorem Step.Evolves.grows {α : Type} {step : Step α} (h : step.Evolves true) : step.Grows :=
  ⟨fun m => (h m).output⟩

namespace Step

variable {α β : Type}

theorem exists_printed (step : Step α) [step.Grows] (m : Machine) :
    ∃ printed, (step.after m).output = m.output ++ printed :=
  Grows.grows m

/-- Behind the first of two steps the second adds to the output. -/
theorem exists_printed_bind (step : Step α) (next : α → Step β) [∀ a, (next a).Grows]
    (m : Machine) :
    ∃ printed, ((step >>= next).after m).output = (step.after m).output ++ printed := by
  unfold after
  rw [bind_apply]
  cases step m with
  | ok a m' => exact exists_printed (next a) m'
  | error stop m' => exact ⟨"", String.append_empty.symm⟩

namespace Grows

variable {step : Step α} {next : α → Step β}

instance pure (a : α) : (Pure.pure a : Step α).Grows :=
  Evolves.grows (.pure a)

instance throw (stop : Stop) : (MonadExcept.throw stop : Step α).Grows :=
  Evolves.grows (.throw stop)

instance get : (MonadState.get : Step Machine).Grows :=
  Evolves.grows .get

instance bind [step.Grows] [∀ a, (next a).Grows] : (step >>= next).Grows where
  grows m := by
    obtain ⟨printed, hstep⟩ := exists_printed step m
    obtain ⟨printed', hnext⟩ := exists_printed_bind step next m
    exact ⟨printed ++ printed', by rw [hnext, hstep, String.append_assoc]⟩

instance ite {p : Prop} [Decidable p] {other : Step α} [step.Grows] [other.Grows] :
    (if p then step else other).Grows := by
  split <;> infer_instance

instance ofExcept (token : Token) (result : Except RuntimeProblem α) :
    (Step.ofExcept token result).Grows :=
  Evolves.grows (.ofExcept token result)

instance assign (ref : RefId) (name : Token) (value : Value) :
    (Step.assign ref name value).Grows :=
  Evolves.grows (.assign ref name value)

instance define (name : Token) (value : Value) : (Step.define name value).Grows :=
  Evolves.grows (.define name value)

instance print (value : Value) : (Step.print value).Grows :=
  Evolves.grows (.print value)

instance followed {rest : Step Flow} [rest.Grows] (flow : Flow) : (rest.followed flow).Grows := by
  cases flow with
  | normal => assumption
  | returned value => exact pure _

instance andThen {first rest : Step Flow} [first.Grows] [rest.Grows] :
    (first.andThen rest).Grows := by
  rw [andThen_eq_bind]
  exact bind

instance inFrame (enclosing : FrameId) (bindings : List (String × Value)) [step.Grows] :
    (Step.inFrame enclosing bindings step).Grows where
  grows m := by
    have hbody := exists_printed step (m.entered enclosing bindings)
    unfold after at hbody ⊢
    rw [inFrame_apply]
    cases hresult : step (m.entered enclosing bindings) with
    | ok a m' | error stop m' =>
      rw [hresult] at hbody
      exact hbody

instance values {run : Expr RefId → Step Value} [∀ e, (run e).Grows] (es : List (Expr RefId)) :
    (Step.values run es).Grows := by
  induction es with
  | nil => exact pure []
  | cons e es ih => exact bind

instance inOrder {run : Stmt RefId → Step Flow} [∀ s, (run s).Grows] (ss : List (Stmt RefId)) :
    (Step.inOrder run ss).Grows := by
  induction ss with
  | nil => exact pure _
  | cons s rest ih => exact andThen

section Runs

variable (n : Nat)

instance evaluate (e : Expr RefId) : (Lox.evaluate n e).Grows :=
  ((evolves n).1 e).weaken.grows

instance call (f : Callable) (arguments : List Value) (paren : Token) :
    (Lox.call n f arguments paren).Grows :=
  ((evolves n).2.1 f arguments paren).weaken.grows

instance execute (s : Stmt RefId) : (Lox.execute n s).Grows :=
  ((evolves n).2.2.1 s).grows

instance loop (condition : Expr RefId) (body : Stmt RefId) :
    (Lox.loop n condition body).Grows :=
  ((evolves n).2.2.2 condition body).grows

instance runProgram (ss : List (Stmt RefId)) : (Lox.runProgram n ss).Grows :=
  (evolves_runProgram n ss).grows

end Runs

end Grows

end Step

end Lox
