import Lox.Proofs.Execution.Evolution
import Lox.Proofs.Execution.Operation

namespace Lox

/-- No function of the program. -/
def Value.Primitive (value : Value) : Prop :=
  ∀ f, value ≠ .function f

/-- No function of the program is bound to a name. -/
def Machine.Primitive (m : Machine) : Prop :=
  ∀ f name value, m.store.read? f name = some value → value.Primitive

/-- The end of a run that has printed no more than this, among primitive values. -/
inductive Hushed {α : Type} (good : α → Prop) (output : String) :
    EStateM.Result Stop Machine α → Prop
  | ok {a : α} {m : Machine} (ha : good a) (hm : m.Primitive) (houtput : m.output = output) :
      Hushed good output (.ok a m)
  | error {stop : Stop} {m : Machine} (hm : m.Primitive) (houtput : m.output = output) :
      Hushed good output (.error stop m)

namespace Step

variable {α β : Type} {good : α → Prop} {good' : β → Prop}

/-- Among primitive values the step prints nothing, and what it gives is good. -/
def Silent (good : α → Prop) (step : Step α) : Prop :=
  ∀ m : Machine, m.Primitive → Hushed good m.output (step m)

namespace Silent

theorem pure {a : α} (h : good a) : (Pure.pure a : Step α).Silent good :=
  fun _ hm => .ok h hm rfl

theorem throw (stop : Stop) : (MonadExcept.throw stop : Step α).Silent good :=
  fun _ hm => .error hm rfl

/-- Both steps have to be silent, the second for every value that the first may have. -/
theorem bind {step : Step α} {next : α → Step β} (h : step.Silent good)
    (hnext : ∀ a, good a → (next a).Silent good') : (step >>= next).Silent good' := by
  intro m hm
  have hfirst := h m hm
  rw [bind_apply]
  generalize step m = result at hfirst ⊢
  cases hfirst with
  | ok ha hm' houtput => exact houtput ▸ hnext _ ha _ hm'
  | error hm' houtput => exact .error hm' houtput

theorem ofExcept {token : Token} {result : Except RuntimeProblem α}
    (h : ∀ a, result = .ok a → good a) : (Step.ofExcept token result).Silent good := by
  cases result with
  | ok a => exact pure (h a rfl)
  | error problem => exact throw _

/-- What is stored is no function of the program. -/
theorem lookUp (ref : RefId) (name : Token) : (Step.lookUp ref name).Silent Value.Primitive := by
  intro m hm
  have hreading (owner : Option FrameId) :
      (reading name (owner.bind (m.store.read? · name.lexeme))).Silent Value.Primitive := by
    cases hfound : owner.bind (m.store.read? · name.lexeme) with
    | none => exact throw _
    | some value =>
      obtain ⟨f, -, hread⟩ := Option.bind_eq_some_iff.mp hfound
      exact pure (hm f _ value hread)
  cases h : m.distances[ref]? with
  | none =>
    rw [lookUp_of_none h]
    exact hreading _ m hm
  | some distance =>
    rw [lookUp_of_some h]
    exact hreading _ m hm

/-- An assignment prints nothing, and stores no function of the program. -/
theorem assign (ref : RefId) (name : Token) {value : Value} (hvalue : value.Primitive) :
    (Step.assign ref name value).Silent fun _ => True := by
  intro m hm
  have hafter : ((Step.assign ref name value).after m).Primitive ∧
      ((Step.assign ref name value).after m).output = m.output := by
    obtain ⟨f, -, hwrite⟩ | hnone := after_assign ref name value m
    · rw [hwrite]
      refine ⟨fun g other found hread => ?_, rfl⟩
      rcases Store.read?_write hread with rfl | hread
      · exact hvalue
      · exact hm g other found hread
    · rw [hnone]
      exact ⟨hm, rfl⟩
  unfold after at hafter
  generalize Step.assign ref name value m = result at hafter ⊢
  cases result with
  | ok u m' => exact .ok trivial hafter.1 hafter.2
  | error stop m' => exact .error hafter.1 hafter.2

/-- Arguments that are evaluated in silence are no functions of the program. -/
theorem values {evaluate : Expr RefId → Step Value}
    (h : ∀ e, (evaluate e).Silent Value.Primitive) (es : List (Expr RefId)) :
    (Step.values evaluate es).Silent fun values => ∀ value ∈ values, value.Primitive := by
  induction es with
  | nil => exact pure (by simp)
  | cons e es ih =>
    exact (h e).bind fun value hvalue => ih.bind fun values hvalues =>
      pure (List.forall_mem_cons.mpr ⟨hvalue, hvalues⟩)

/-- Native functions print nothing and make no functions. -/
theorem native (f : Native) {arguments : List Value}
    (h : ∀ value ∈ arguments, value.Primitive) (paren : Token) :
    (f.call arguments paren).Silent Value.Primitive := by
  unfold Native.call
  cases f.action with
  | clock => exact fun m hm => .ok nofun hm rfl
  | echo =>
    cases arguments with
    | nil => exact pure nofun
    | cons value arguments => exact pure (h value List.mem_cons_self)
  | ignore => exact pure nofun
  | fail => exact throw _

end Silent

end Step

/-- What can be called of a primitive value is a host function. -/
theorem Value.Primitive.callee {value : Value} (h : value.Primitive) {given : Nat} {f : Callable}
    (hf : value.callee given = .ok f) : ∃ g, f = .native g := by
  cases value with
  | function f => exact absurd rfl (h f)
  | native g =>
    unfold Value.callee Value.callable? at hf
    dsimp only at hf
    split at hf
    · exact ⟨g, (Except.ok.inj hf).symm⟩
    · cases hf
  | _ => cases hf

/-- No expression prints anything, whatever its operators and calls. -/
theorem silent_evaluate (fuel : Nat) (e : Expr RefId) :
    (evaluate fuel e).Silent Value.Primitive := by
  induction fuel generalizing e with
  | zero => exact .throw _
  | succ fuel ih =>
    cases e with
    | literal value =>
      refine .pure fun f => ?_
      cases value <;> nofun
    | grouping inner => exact ih inner
    | unary operator operand =>
      exact (ih operand).bind fun _ _ => .ofExcept fun _ h =>
        Value.ne_function (Operation.callable?_unary h)
    | binary left operator right =>
      exact (ih left).bind fun _ _ => (ih right).bind fun _ _ => .ofExcept fun _ h =>
        Value.ne_function (Operation.callable?_binary h)
    | logical left operator right =>
      refine (ih left).bind fun value hvalue => ?_
      split
      · exact .pure hvalue
      · exact ih right
    | var ref name => exact .lookUp ref name
    | assign ref name value =>
      exact (ih value).bind fun _ hvalue =>
        (Step.Silent.assign ref name hvalue).bind fun _ _ => .pure hvalue
    | call callee paren arguments =>
      refine (ih callee).bind fun value hvalue => ?_
      refine (Step.Silent.values ih arguments).bind fun values hvalues => ?_
      refine (Step.Silent.ofExcept fun _ h => hvalue.callee h).bind fun f hf => ?_
      obtain ⟨g, rfl⟩ := hf
      cases fuel with
      | zero => exact .throw _
      | succ fuel => exact .native g hvalues paren

end Lox
