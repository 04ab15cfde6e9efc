import Lox.Proofs.Execution.Comparison
import Lox.Proofs.Execution.Output

/-!
Runs compared. On corresponding machines, programs that correspond take corresponding steps: they
print the same, and end with corresponding values or with the same problem at corresponding tokens.
Either both runs have the same fuel and use it up together, or one of them has much less than the
other and may give up; then what it had printed is the beginning of what the other prints.
-/

namespace Lox

/-- This side has at most a quarter of the fuel of the other, but for a little. -/
def Side.Leads (side : Side) (slack n n' : Nat) : Prop :=
  match side with
  | .first => 4 * n ≤ n' + slack
  | .second => 4 * n' ≤ n + slack

/-- The run that may give up before the other, if there is one. -/
abbrev Pace := Option Side

/-- The run that may give up has little fuel, or both runs have the same. -/
def Pace.Leads (pace : Pace) (slack n n' : Nat) : Prop :=
  match pace with
  | none => n = n'
  | some side => side.Leads slack n n'

/-- Some fuel may be lost on the way. -/
theorem Side.Leads.weaken {side : Side} {n n' : Nat} (h : side.Leads 0 n n') (slack : Nat) :
    side.Leads slack n n' := by
  cases side <;> simp only [Side.Leads] at h ⊢ <;> omega

/-- To one call of the first run the second may have up to four. -/
theorem Side.Leads.pred {side : Side} {slack n n' d : Nat} (h : side.Leads slack (n + 1) (n' + d))
    (hpos : 0 < d) (hd : slack + d ≤ 4) : side.Leads 0 n n' := by
  cases side <;> simp only [Side.Leads] at h ⊢ <;> omega

/-- When both runs have used up one unit, the run that may give up still has little fuel. -/
theorem Pace.Leads.pred {pace : Pace} {slack n n' : Nat} (h : pace.Leads slack (n + 1) (n' + 1))
    (hslack : slack ≤ 3) : pace.Leads 0 n n' := by
  cases pace with
  | none => exact Nat.succ.inj h
  | some side => exact Side.Leads.pred h Nat.one_pos (Nat.succ_le_succ hslack)

section Results

variable {α : Type}

/-- The machine in the end, whether or not there is a value. -/
def machineOf : EStateM.Result Stop Machine α → Machine
  | .ok _ m | .error _ m => m

/-- Leaves with another machine in the end. -/
def leaving (g : Machine → Machine) :
    EStateM.Result Stop Machine α → EStateM.Result Stop Machine α
  | .ok a m => .ok a (g m)
  | .error stop m => .error stop (g m)

theorem leaving_id (result : EStateM.Result Stop Machine α) : leaving id result = result := by
  cases result <;> rfl

/-- A body that runs in a frame of its own comes back to where it started, however it ends. -/
theorem Step.inFrame_eq_leaving (enclosing : FrameId) (bindings : List (String × Value))
    (body : Step α) (m : Machine) : inFrame enclosing bindings body m =
      leaving (fun m' => { m' with environment := m.environment })
        (body (m.entered enclosing bindings)) := rfl

/-- One turn of a loop, and then the turns that are left unless the body returns. -/
theorem loop_succ (fuel : Nat) (condition : Expr RefId) (body : Stmt RefId) :
    loop (fuel + 1) condition body = (do
      if (← evaluate fuel condition).isTruthy then
        (execute fuel body).andThen (loop fuel condition body)
      else
        return .normal) := rfl

/-- A call that is not too deep counts up while its body runs, and down behind it, however it
    ends. -/
theorem Step.asCall_eq_leaving {m : Machine} (paren : Token) (body : Step α)
    (h : m.callDepth < maxCallDepth) : asCall paren body m =
      leaving (fun m' => { m' with callDepth := m'.callDepth - 1 }) (body m.called) :=
  asCall_apply_of_lt paren body h

end Results

namespace Comparison

variable {ι : Type} (C : Comparison ι)

/-- Errors are the same, but for the name of a variable that is undefined. -/
inductive Errors : RuntimeError → RuntimeError → Prop
  | same {t t' : Token} {problem : RuntimeProblem} (htoken : C.token t t') :
      Errors ⟨t, problem⟩ ⟨t', problem⟩
  | undefined {t t' : Token} (hname : C.named t t') :
      Errors ⟨t, .undefined t.lexeme⟩ ⟨t', .undefined t'.lexeme⟩

/-- The runs end alike, or they run out of fuel together, or the one that may give up does so. -/
inductive Results {α β : Type} (w : Pairing ι) (c : List ι) (good : Pairing ι → α → β → Prop) :
    Pace → EStateM.Result Stop Machine α → EStateM.Result Stop Machine β → Prop
  | ok {pace : Pace} {w' : Pairing ι} {a : α} {a' : β} {m m' : Machine} (hle : w ≤ w')
      (h : good w' a a') (hm : C.Machines w' c m m') : Results w c good pace (.ok a m) (.ok a' m')
  | error {pace : Pace} {w' : Pairing ι} {e e' : RuntimeError} {m m' : Machine} (hle : w ≤ w')
      (h : C.Errors e e') (hm : C.Machines w' c m m') :
      Results w c good pace (.error (.error e) m) (.error (.error e') m')
  | outOfFuel {m m' : Machine} (houtput : m'.output = C.before ++ m.output) :
      Results w c good none (.error .outOfFuel m) (.error .outOfFuel m')
  | first {m : Machine} {result' : EStateM.Result Stop Machine β}
      (houtput : ∃ printed, (machineOf result').output = C.before ++ m.output ++ printed) :
      Results w c good (some .first) (.error .outOfFuel m) result'
  | second {result : EStateM.Result Stop Machine α} {m' : Machine}
      (houtput : ∃ printed, C.before ++ (machineOf result).output = m'.output ++ printed) :
      Results w c good (some .second) result (.error .outOfFuel m')

/-- On corresponding machines the steps have corresponding results. -/
def Steps {α β : Type} (pace : Pace) (w : Pairing ι) (c : List ι)
    (good : Pairing ι → α → β → Prop) (step : Step α) (step' : Step β) : Prop :=
  ∀ m m', C.Machines w c m m' → C.Results w c good pace (step m) (step' m')

variable {C} {pace : Pace} {α α' β β' : Type} {w : Pairing ι} {c : List ι}
  {good : Pairing ι → α → α' → Prop} {good' : Pairing ι → β → β' → Prop}
  {name name' paren paren' : Token} {v v' : Value}

/-- Results that hold for more frames hold for those that were known before. -/
theorem Results.from_earlier {w' : Pairing ι} {result : EStateM.Result Stop Machine α}
    {result' : EStateM.Result Stop Machine α'} (h : C.Results w' c good pace result result')
    (hle : w ≤ w') : C.Results w c good pace result result' := by
  cases h with
  | ok hle' hgood hm => exact .ok (hle.trans hle') hgood hm
  | error hle' herror hm => exact .error (hle.trans hle') herror hm
  | outOfFuel houtput => exact .outOfFuel houtput
  | first houtput => exact .first houtput
  | second houtput => exact .second houtput

/-- Runs with the same fuel print the same, also if they run out of it. -/
theorem Results.output {result : EStateM.Result Stop Machine α}
    {result' : EStateM.Result Stop Machine α'} (h : C.Results w c good none result result') :
    (machineOf result').output = C.before ++ (machineOf result).output := by
  cases h with
  | ok _ _ hm => exact hm.output
  | error _ _ hm => exact hm.output
  | outOfFuel houtput => exact houtput

/-- What the run prints that has little fuel, the other prints as well before anything else. -/
theorem Results.output_first {result : EStateM.Result Stop Machine α}
    {result' : EStateM.Result Stop Machine α'}
    (h : C.Results w c good (some .first) result result') :
    ∃ rest, (machineOf result').output = C.before ++ (machineOf result).output ++ rest := by
  cases h with
  | ok _ _ hm => exact ⟨"", hm.output.trans String.append_empty.symm⟩
  | error _ _ hm => exact ⟨"", hm.output.trans String.append_empty.symm⟩
  | first houtput => exact houtput

/-- What the second run prints with little fuel, the first prints as well before anything else. -/
theorem Results.output_second {result : EStateM.Result Stop Machine α}
    {result' : EStateM.Result Stop Machine α'}
    (h : C.Results w c good (some .second) result result') :
    ∃ rest, C.before ++ (machineOf result).output = (machineOf result').output ++ rest := by
  cases h with
  | ok _ _ hm => exact ⟨"", hm.output.symm.trans String.append_empty.symm⟩
  | error _ _ hm => exact ⟨"", hm.output.symm.trans String.append_empty.symm⟩
  | second houtput => exact houtput

/-- Two results may both be left for the levels from before, with nothing more printed. -/
theorem Results.leave {w₁ : Pairing ι} {c₁ : List ι} {g g' : Machine → Machine}
    {result : EStateM.Result Stop Machine α} {result' : EStateM.Result Stop Machine α'}
    (h : C.Results w₁ c₁ good pace result result') (hle : w ≤ w₁)
    (hg : ∀ m, (g m).output = m.output) (hg' : ∀ m, (g' m).output = m.output)
    (hm : ∀ w', w₁ ≤ w' → C.Machines w' c₁ (machineOf result) (machineOf result') →
      C.Machines w' c (g (machineOf result)) (g' (machineOf result'))) :
    C.Results w c good pace (leaving g result) (leaving g' result') := by
  have hmachine {α : Type} {g : Machine → Machine} (hg : ∀ m, (g m).output = m.output)
      (result : EStateM.Result Stop Machine α) :
      (machineOf (leaving g result)).output = (machineOf result).output := by
    cases result <;> exact hg _
  cases h with
  | ok hle' hgood hm' => exact .ok (hle.trans hle') hgood (hm _ hle' hm')
  | error hle' herror hm' => exact .error (hle.trans hle') herror (hm _ hle' hm')
  | outOfFuel houtput => exact .outOfFuel (by rw [hg, hg', houtput])
  | first houtput => exact .first (by rwa [hmachine hg', hg])
  | second houtput => exact .second (by rwa [hmachine hg, hg'])

namespace Steps

/-- Steps that do nothing correspond if their values do. -/
theorem pure {a : α} {a' : α'} (h : good w a a') :
    C.Steps pace w c good (Pure.pure a : Step α) (Pure.pure a' : Step α') :=
  fun _ _ hm => .ok le_rfl h hm

/-- Both steps fail with the same problem, at corresponding tokens. -/
theorem fail {problem : RuntimeProblem} (h : C.token name name') :
    C.Steps pace w c good (Step.fail name problem : Step α)
      (Step.fail name' problem : Step α') :=
  fun _ _ hm => .error le_rfl (.same h) hm

/-- The second steps begin where the first end, with more frames maybe. -/
theorem bind {step : Step α} {step' : Step α'} {next : α → Step β} {next' : α' → Step β'}
    [∀ a, (next a).Grows] [∀ a', (next' a').Grows] (h : C.Steps pace w c good step step')
    (hnext : ∀ w', w ≤ w' → ∀ a a', good w' a a' →
      C.Steps pace w' c good' (next a) (next' a')) :
    C.Steps pace w c good' (step >>= next) (step' >>= next') := by
  intro m m' hm
  have hresult := h m m' hm
  -- If one run has given up, the other goes on alone, and all it can do is print more.
  have hprinted := Step.exists_printed_bind step next m
  have hprinted' := Step.exists_printed_bind step' next' m'
  unfold Step.after at hprinted hprinted'
  rw [Step.bind_apply] at hprinted ⊢
  rw [Step.bind_apply] at hprinted' ⊢
  generalize step m = result at hresult hprinted ⊢
  generalize step' m' = result' at hresult hprinted' ⊢
  cases hresult with
  | ok hle hgood hm => exact (hnext _ hle _ _ hgood _ _ hm).from_earlier hle
  | error hle herror hm => exact .error hle herror hm
  | outOfFuel houtput => exact .outOfFuel houtput
  | first houtput =>
    obtain ⟨printed, houtput⟩ := houtput
    obtain ⟨printed', houtput'⟩ := hprinted'
    refine .first ⟨printed ++ printed', ?_⟩
    rw [← String.append_assoc, ← houtput]
    exact houtput'
  | second houtput =>
    obtain ⟨printed, houtput⟩ := houtput
    obtain ⟨printed', houtput'⟩ := hprinted
    refine .second ⟨printed ++ printed', ?_⟩
    rw [← String.append_assoc, ← houtput, String.append_assoc]
    exact congrArg (C.before ++ ·) houtput'

/-- Both steps read their machines, which correspond. -/
theorem get : C.Steps pace w c (fun w => C.Machines w c) (MonadState.get : Step Machine)
    (MonadState.get : Step Machine) :=
  fun _ _ hm => .ok le_rfl hm hm

/-- An operation that makes no function of the program. -/
theorem ofExcept {result result' : Except RuntimeProblem Value} (heq : result' = result)
    (h : ∀ value, result = .ok value → value.callable? = none) (htoken : C.token name name') :
    C.Steps pace w c C.Values (Step.ofExcept name result) (Step.ofExcept name' result') := by
  subst heq
  cases result' with
  | ok value => exact pure (.of_callable? (h value rfl))
  | error => exact fail htoken

/-- Corresponding values are both callable with this many arguments, or both fail with the same
    problem. -/
theorem callee (h : C.Values w v v') (given : Nat) (hparen : C.token paren paren') :
    C.Steps pace w c C.Callables (Step.ofExcept paren (v.callee given))
      (Step.ofExcept paren' (v'.callee given)) := by
  have hresult (f f' : Callable) (harity : f'.arity = f.arity) (hf : C.Callables w f f') :
      C.Steps pace w c C.Callables
        (Step.ofExcept paren
          (if given = f.arity then .ok f else .error (.wrongArity f.arity given)))
        (Step.ofExcept paren'
          (if given = f'.arity then .ok f' else .error (.wrongArity f'.arity given))) := by
    rw [harity]
    split
    · exact pure hf
    · exact fail hparen
  cases h with
  | plain h =>
    cases v with
    | native f => exact hresult (.native f) (.native f) rfl .native
    | function f => exact absurd rfl (h f)
    | _ => exact fail hparen
  | @function f f' h => exact hresult (.function f) (.function f') h.arity (.function h)

/-- What was found is returned on both sides, or the variable is undefined on both. -/
theorem reading {found found' : Option Value} (hname : C.named name name')
    (h : Option.Rel (C.Values w) found found') :
    C.Steps pace w c C.Values (Step.reading name found) (Step.reading name' found') := by
  cases h with
  | none => exact fun _ _ hm => .error le_rfl (.undefined hname) hm
  | some h => exact pure h

/-- References that lead to corresponding variables read corresponding values. -/
theorem lookUp {ref ref' : RefId} (href : C.Refers c ref name ref' name') :
    C.Steps pace w c C.Values (Step.lookUp ref name) (Step.lookUp ref' name') := by
  intro m m' hm
  obtain ⟨hname, entry, entry', hrefs, hleads⟩ := href
  obtain ⟨hentry, hentry'⟩ := hm.distances hrefs
  generalize hlexeme : name.lexeme = n, hlexeme' : name'.lexeme = n' at hleads
  cases hleads with
  | globals =>
    rw [Step.lookUp_of_none hentry, Step.lookUp_of_none hentry', hlexeme, hlexeme']
    exact reading hname (hm.store.get? _) m m' hm
  | frame hmeets hsame =>
    rw [Step.lookUp_of_some hentry, Step.lookUp_of_some hentry', hlexeme, hlexeme']
    exact reading hname (hm.store.getAt? hm.here hmeets hsame) m m' hm

/-- The assignment was made on both sides, or the variable is undefined on both. -/
theorem writing {written written' : Bool × Store} {m m' : Machine} (hm : C.Machines w c m m')
    (hname : C.named name name') (h : C.Written w m.globals m'.globals written written') :
    C.Results w c (fun _ _ _ => True) pace (Step.writing name written m)
      (Step.writing name' written' m') := by
  obtain ⟨hwritten, hstore⟩ := h
  have hm' : C.Machines w c { m with store := written.2 } { m' with store := written'.2 } :=
    { hm with store := hstore }
  unfold Step.writing
  rw [hwritten]
  split
  · exact .ok le_rfl trivial hm'
  · exact .error le_rfl (.undefined hname) hm'

/-- References that lead to corresponding variables are assigned to alike. -/
theorem assign {ref ref' : RefId} (href : C.Refers c ref name ref' name')
    (hvalue : C.Values w v v') :
    C.Steps pace w c (fun _ _ _ => True) (Step.assign ref name v) (Step.assign ref' name' v') := by
  intro m m' hm
  obtain ⟨hname, entry, entry', hrefs, hleads⟩ := href
  obtain ⟨hentry, hentry'⟩ := hm.distances hrefs
  generalize hlexeme : name.lexeme = n, hlexeme' : name'.lexeme = n' at hleads
  cases hleads with
  | globals =>
    rw [Step.assign_of_none hentry, Step.assign_of_none hentry', hlexeme, hlexeme']
    exact writing hm hname (hm.store.assign hvalue _)
  | frame hmeets hsame =>
    rw [Step.assign_of_some hentry, Step.assign_of_some hentry', hlexeme, hlexeme']
    exact writing hm hname (hm.store.assignAt hm.here hmeets hsame hvalue)

/-- A declaration binds corresponding names on a level that both chains have. -/
theorem define (hc : C.Shared c) (hname : (C.innermost c).Same name.lexeme name'.lexeme)
    (hvalue : C.Values w v v') :
    C.Steps pace w c (fun _ _ _ => True) (Step.define name v) (Step.define name' v') :=
  fun _ _ hm => .ok le_rfl trivial { hm with store := hm.store.define hc hm.here hname hvalue }

/-- A function that is declared gets the same identity on both sides, and remembers corresponding
    frames. -/
theorem makeFunction {parameters parameters' : List Token} {body body' : List (Stmt RefId)} {l : ι}
    (hlexeme : name'.lexeme = name.lexeme)
    (h : ∀ identity identity' f f', C.functions c l ⟨identity, name, parameters, body, f⟩
      ⟨identity', name', parameters', body', f'⟩) :
    C.Steps pace w c C.Values (Step.makeFunction name parameters body)
      (Step.makeFunction name' parameters' body') := by
  intro m m' hm
  refine .ok le_rfl (.function ⟨hm.functions, hlexeme, c, l, hm.here, h _ _ _ _⟩)
    { hm with functions := ?_ }
  exact congrArg (· + 1) hm.functions

/-- Corresponding values are printed as the same text. -/
theorem print (h : C.Values w v v') :
    C.Steps pace w c (fun _ _ _ => True) (Step.print v) (Step.print v') := by
  intro m m' hm
  refine .ok le_rfl trivial { hm with output := ?_ }
  change m'.output ++ v'.text ++ "\n" = C.before ++ (m.output ++ v.text ++ "\n")
  rw [hm.output, h.resembles.text, String.append_assoc, String.append_assoc, String.append_assoc]

/-- The clocks of corresponding machines tell the same time. -/
theorem readClock : C.Steps pace w c C.Values Step.readClock Step.readClock := by
  intro m m' hm
  change C.Results w c C.Values pace (.ok (.number (m.clock.reading m.clock.taken)) _)
    (.ok (.number (m'.clock.reading m'.clock.taken)) _)
  rw [hm.clock]
  exact .ok le_rfl (.of_callable? rfl) { hm with clock := rfl }

/-- The body runs in a frame that both machines enter, among the frames around `enclosing`. -/
theorem inFrame {bindings bindings' : List (String × Value)} {body : Step α} {body' : Step α'}
    {b : List ι} {l : ι} {enclosing enclosing' : FrameId} (henclosing : w b enclosing enclosing')
    (hl : C.side? l = none)
    (hbindings : List.Forall₂ (C.Bindings w (C.naming l)) bindings bindings')
    (h : ∀ w', w ≤ w' → C.Steps pace w' (l :: b) good body body') :
    C.Steps pace w c good (Step.inFrame enclosing bindings body)
      (Step.inFrame enclosing' bindings' body') := by
  intro m m' hm
  rw [Step.inFrame_eq_leaving, Step.inFrame_eq_leaving]
  have hle := w.le_enter (l :: b) m.store.next m'.store.next
  refine (h _ hle _ _ (hm.enterBoth henclosing hl hbindings)).leave hle (fun _ => rfl)
    (fun _ => rfl) fun w' hle' hm' => ?_
  exact { hm' with here := hle' _ _ _ (hle _ _ _ hm.here) }

/-- The body of the first runs in a frame that the second machine lacks. The second machine comes
    back to where it was. -/
theorem inFirst {body : Step α} {step' : Step α'} {declaring : Bool} {l : ι}
    (hevolves : step'.Evolves declaring) (hl : C.side? l = some .first)
    (h : ∀ w', w ≤ w' → C.Steps pace w' (l :: c) good body step') :
    C.Steps pace w c good (do Step.inFrame (← MonadState.get).environment [] body) step' := by
  intro m m' hm
  rw [Step.bind_apply, Step.get_apply]
  dsimp only
  rw [Step.inFrame_eq_leaving, ← leaving_id (step' m')]
  have hle := w.le_enter (l :: c) m.store.next m'.environment
  refine (h _ hle _ _ (hm.enterFirst hl)).leave hle (fun _ => rfl) (fun _ => rfl)
    fun w' hle' hm' => ?_
  have henvironment : (machineOf (step' m')).environment = m'.environment :=
    (hevolves m').environment
  exact { hm' with here := henvironment.symm ▸ hle' _ _ _ (hle _ _ _ hm.here) }

/-- The body of the second runs in a frame that the first machine lacks. -/
theorem inSecond {step : Step α} {body' : Step α'} {declaring : Bool} {l : ι}
    (hevolves : step.Evolves declaring) (hl : C.side? l = some .second)
    (h : ∀ w', w ≤ w' → C.Steps pace w' (l :: c) good step body') :
    C.Steps pace w c good step (do Step.inFrame (← MonadState.get).environment [] body') := by
  intro m m' hm
  rw [Step.bind_apply, Step.get_apply]
  dsimp only
  rw [Step.inFrame_eq_leaving, ← leaving_id (step m)]
  have hle := w.le_enter (l :: c) m.environment m'.store.next
  refine (h _ hle _ _ (hm.enterSecond hl)).leave hle (fun _ => rfl) (fun _ => rfl)
    fun w' hle' hm' => ?_
  have henvironment : (machineOf (step m)).environment = m.environment := (hevolves m).environment
  exact { hm' with here := henvironment.symm ▸ hle' _ _ _ (hle _ _ _ hm.here) }

/-- A call that is too deep fails on both sides; otherwise the bodies run, one call deeper. -/
theorem asCall {body : Step α} {body' : Step α'} (hparen : C.token paren paren')
    (h : C.Steps pace w c good body body') :
    C.Steps pace w c good (Step.asCall paren body) (Step.asCall paren' body') := by
  intro m m' hm
  rcases Nat.lt_or_ge m.callDepth maxCallDepth with hdepth | hdepth
  · rw [Step.asCall_eq_leaving _ _ hdepth, Step.asCall_eq_leaving _ _ (hm.callDepth ▸ hdepth)]
    have hcalled : C.Machines w c m.called m'.called :=
      { hm with callDepth := congrArg (· + 1) hm.callDepth }
    refine (h _ _ hcalled).leave le_rfl (fun _ => rfl) (fun _ => rfl) fun w' _ hm' => ?_
    exact { hm' with callDepth := congrArg (· - 1) hm'.callDepth }
  · rw [Step.asCall_apply_of_le _ _ hdepth, Step.asCall_apply_of_le _ _ (hm.callDepth ▸ hdepth)]
    exact .error le_rfl (.same hparen) hm

/-- Corresponding arguments are evaluated one after the other, to corresponding values. -/
theorem values {run run' : Expr RefId → Step Value} {es es' : List (Expr RefId)}
    [∀ e, (run e).Grows] [∀ e, (run' e).Grows]
    (hrun : ∀ w e e', C.Expressions c e e' → C.Steps pace w c C.Values (run e) (run' e'))
    (h : Expr.RelatedAll C.token (C.Refers c) es es') :
    C.Steps pace w c (fun w => List.Forall₂ (C.Values w)) (Step.values run es)
      (Step.values run' es') := by
  induction es generalizing w es' with
  | nil =>
    cases h
    exact pure .nil
  | cons e es ih =>
    cases h with
    | cons hfirst hrest =>
      refine (hrun w _ _ hfirst).bind fun w' _ _ _ hvalue => ?_
      exact (ih hrest).bind fun w'' hle _ _ hvalues => pure (.cons (hvalue.mono hle) hvalues)

/-- Behind corresponding steps the rest runs on both sides or on neither. -/
theorem andThen {step step' rest rest' : Step Flow} [rest.Grows] [rest'.Grows]
    (h : C.Steps pace w c C.Flows step step')
    (hrest : ∀ w', w ≤ w' → C.Steps pace w' c C.Flows rest rest') :
    C.Steps pace w c C.Flows (step.andThen rest) (step'.andThen rest') := by
  rw [Step.andThen_eq_bind, Step.andThen_eq_bind]
  refine h.bind fun w' hle flow flow' hflow => ?_
  cases hflow with
  | normal => exact hrest w' hle
  | returned hvalue => exact pure (.returned hvalue)

/-- Corresponding statements are executed in order, up to one that returns. -/
theorem inOrder {run run' : Stmt RefId → Step Flow} {ss ss' : List (Stmt RefId)}
    [∀ s, (run s).Grows] [∀ s, (run' s).Grows]
    (hrun : ∀ w s s', C.statements true c s s' → C.Steps pace w c C.Flows (run s) (run' s'))
    (h : List.Forall₂ (C.statements true c) ss ss') :
    C.Steps pace w c C.Flows (Step.inOrder run ss) (Step.inOrder run' ss') := by
  induction h generalizing w with
  | nil => exact pure .normal
  | cons hfirst _ ih =>
    rw [Step.inOrder_cons, Step.inOrder_cons]
    exact (hrun w _ _ hfirst).andThen fun w' _ => ih

/-- A native function does the same with corresponding arguments. -/
theorem native {arguments arguments' : List Value} (f : Native)
    (h : List.Forall₂ (C.Values w) arguments arguments') (hparen : C.token paren paren') :
    C.Steps pace w c C.Values (f.call arguments paren) (f.call arguments' paren') := by
  unfold Native.call
  cases f.action with
  | clock => exact readClock
  | echo =>
    cases h with
    | nil => exact pure (.of_callable? rfl)
    | cons hfirst => exact pure hfirst
  | fail =>
    dsimp only
    rw [h.length_eq]
    exact fail hparen
  | ignore => exact pure (.of_callable? rfl)

/-- The first run may give up at once. -/
theorem giveUpFirst {step' : Step α'} [step'.Grows] :
    C.Steps (some .first) w c good (throw .outOfFuel : Step α) step' := by
  intro m m' hm
  obtain ⟨printed, hprinted⟩ := step'.exists_printed m'
  exact .first ⟨printed, hprinted.trans (congrArg (· ++ printed) hm.output)⟩

/-- The second run may give up at once. -/
theorem giveUpSecond {step : Step α} [step.Grows] :
    C.Steps (some .second) w c good step (throw .outOfFuel : Step α') := by
  intro m m' hm
  obtain ⟨printed, hprinted⟩ := step.exists_printed m
  refine .second ⟨printed, ?_⟩
  rw [hm.output, String.append_assoc]
  exact congrArg (C.before ++ ·) hprinted

section Fuel

variable {slack n n' : Nat} {f : Nat → Step α} {step : Step α} {step' : Step α'}

/-- A run without fuel is one that may give up, or the other has none either. -/
theorem exhausted [∀ n, (f n).Grows] (hzero : f 0 = throw .outOfFuel)
    (h : pace.Leads slack n 0) (hslack : slack ≤ 3) :
    C.Steps pace w c good (f n) (throw .outOfFuel : Step α') := by
  cases pace with
  | none =>
    obtain rfl : n = 0 := h
    rw [hzero]
    exact fun _ _ hm => .outOfFuel hm.output
  | some side =>
    cases side with
    | first =>
      simp only [Pace.Leads, Side.Leads] at h
      obtain rfl : n = 0 := by omega
      rw [hzero]
      exact giveUpFirst
    | second => exact giveUpSecond

/-- The first run has fuel as well, unless it gives up. -/
theorem of_succ [step'.Grows] (hzero : f 0 = throw .outOfFuel)
    (h : pace.Leads slack n (n' + 1)) (hslack : slack ≤ 3)
    (hsucc : ∀ k, pace.Leads slack (k + 1) (n' + 1) →
      C.Steps pace w c good (f (k + 1)) step') :
    C.Steps pace w c good (f n) step' := by
  cases n with
  | succ k => exact hsucc k h
  | zero =>
    cases pace with
    | none => cases h
    | some side =>
      cases side with
      | first =>
        rw [hzero]
        exact giveUpFirst
      | second =>
        simp only [Pace.Leads, Side.Leads] at h
        omega

/-- The second run has fuel as well, unless it may give up. -/
theorem of_succ_second {g : Nat → Step α'} {d : Nat} {side : Side} [step.Grows]
    (hzero : g 0 = throw .outOfFuel) (h : side.Leads slack (n + 1) (n' + d)) (hd : slack + d ≤ 3)
    (hsucc : ∀ k, n' = k + 1 → C.Steps (some side) w c good step (g (k + 1))) :
    C.Steps (some side) w c good step (g n') := by
  cases n' with
  | succ k => exact hsucc k rfl
  | zero =>
    cases side with
    | first =>
      simp only [Side.Leads] at h
      omega
    | second =>
      rw [hzero]
      exact giveUpSecond

end Fuel

end Steps

section Runs

/-- What a block around a statement takes of the fuel. -/
def slack : Bool → Nat
  | true => 0
  | false => 1

theorem slack_le (b : Bool) : slack b ≤ 3 := by
  cases b <;> decide

/-- With this fuel for the second run, programs that correspond have corresponding results, wherever
    they are. -/
structure Runs (C : Comparison ι) (pace : Pace) (n' : Nat) : Prop where
  evaluate : ∀ n, pace.Leads 0 n n' → ∀ w c e e', C.Expressions c e e' →
    C.Steps pace w c C.Values (Lox.evaluate n e) (Lox.evaluate n' e')
  call : ∀ n, pace.Leads 0 n n' → ∀ w c f f' arguments arguments' paren paren',
    C.Callables w f f' → List.Forall₂ (C.Values w) arguments arguments' → C.token paren paren' →
    C.Steps pace w c C.Values (Lox.call n f arguments paren) (Lox.call n' f' arguments' paren')
  execute : ∀ n b, pace.Leads (slack b) n n' → ∀ w c s s', C.statements b c s s' →
    C.Steps pace w c C.Flows (Lox.execute n s) (Lox.execute n' s')
  loop : ∀ n, pace.Leads 0 n n' → ∀ w c e e' s s', C.Expressions c e e' →
    C.statements true c s s' →
    C.Steps pace w c C.Flows (Lox.loop n e s) (Lox.loop n' e' s')

variable {n n' : Nat}

/-- The step for expressions: whatever is evaluated inside has less fuel. -/
theorem Runs.evaluate_succ (h : C.Runs pace n') (hlead : pace.Leads 0 n n') {e e' : Expr RefId}
    (he : C.Expressions c e e') :
    C.Steps pace w c C.Values (Lox.evaluate (n + 1) e) (Lox.evaluate (n' + 1) e') := by
  have hevaluate := h.evaluate n hlead
  cases he with
  | @literal value => exact .pure (.of_callable? (by cases value <;> rfl))
  | grouping he => exact hevaluate _ _ _ _ he
  | unary hoperator he =>
    refine (hevaluate _ _ _ _ he).bind fun _ _ _ _ hvalue => ?_
    rw [(C.sameText hoperator).kind]
    exact .ofExcept (hvalue.resembles.unary _) (fun _ => Operation.callable?_unary) hoperator
  | binary hleft hoperator hright =>
    refine (hevaluate _ _ _ _ hleft).bind fun _ _ _ _ hx => ?_
    refine (hevaluate _ _ _ _ hright).bind fun _ _ _ _ hy => ?_
    rw [(C.sameText hoperator).kind]
    exact .ofExcept (hx.resembles.binary hy.resembles _) (fun _ => Operation.callable?_binary)
      hoperator
  | logical hleft hoperator hright =>
    refine (hevaluate _ _ _ _ hleft).bind fun _ _ _ _ hvalue => ?_
    rw [(C.sameText hoperator).kind, hvalue.resembles.shortCircuits]
    split
    · exact .pure hvalue
    · exact hevaluate _ _ _ _ hright
  | var href => exact .lookUp href
  | assign href hvalue =>
    refine (hevaluate _ _ _ _ hvalue).bind fun _ _ _ _ hvalue => ?_
    exact (Steps.assign href hvalue).bind fun _ hle _ _ _ => .pure (hvalue.mono hle)
  | call hcallee hparen harguments =>
    refine (hevaluate _ _ _ _ hcallee).bind fun _ _ _ _ hcallee => ?_
    refine (Steps.values (fun w => hevaluate w c) harguments).bind fun _ hle _ _ hvalues => ?_
    rw [← hvalues.length_eq]
    refine (Steps.callee (hcallee.mono hle) _ hparen).bind fun _ hle _ _ hf => ?_
    exact h.call n hlead _ _ _ _ _ _ _ _ hf (Values.mono_list hvalues hle) hparen

/-- The step for calls. The bodies run among the frames in which the functions were made. -/
theorem Runs.call_succ (h : C.Runs pace n') (hlead : pace.Leads 0 n n') {f f' : Callable}
    {arguments arguments' : List Value} (hf : C.Callables w f f')
    (harguments : List.Forall₂ (C.Values w) arguments arguments') (hparen : C.token paren paren') :
    C.Steps pace w c C.Values (Lox.call (n + 1) f arguments paren)
      (Lox.call (n' + 1) f' arguments' paren') := by
  cases hf with
  | native => exact .native _ harguments hparen
  | @function f f' hf =>
    -- The levels around the body are those at its declaration, not those at the call.
    obtain ⟨b, l, hw, hfunctions⟩ := hf.exists_functions
    have hrun : C.Steps pace w c C.Flows
        (Step.asCall paren (Step.inFrame f.frame (f.bindings arguments)
          (Step.inOrder (Lox.execute n) f.body)))
        (Step.asCall paren' (Step.inFrame f'.frame (f'.bindings arguments')
          (Step.inOrder (Lox.execute n') f'.body))) := by
      refine .asCall hparen (.inFrame hw (C.shared hfunctions)
        (bindings_of_parameters (C.parameters hfunctions) harguments) fun _ _ => ?_)
      exact .inOrder (fun w => h.execute n true hlead w _) (C.body hfunctions)
    exact hrun.bind fun _ _ _ _ hflow => .pure hflow.value

/-- The step for loops, one turn at a time. -/
theorem Runs.loop_succ (h : C.Runs pace n') (hlead : pace.Leads 0 n n') {e e' : Expr RefId}
    {s s' : Stmt RefId} (he : C.Expressions c e e') (hs : C.statements true c s s') :
    C.Steps pace w c C.Flows (Lox.loop (n + 1) e s) (Lox.loop (n' + 1) e' s') := by
  rw [Lox.loop_succ, Lox.loop_succ]
  refine (h.evaluate n hlead _ _ _ _ he).bind fun _ _ _ _ hvalue => ?_
  rw [hvalue.resembles.isTruthy]
  split
  · exact (h.execute n true hlead _ _ _ _ hs).andThen fun _ _ => h.loop n hlead _ _ _ _ _ _ he hs
  · exact .pure .normal

/-- The step for statements of one form. -/
theorem Runs.execute_forms (h : C.Runs pace n') (hlead : pace.Leads 0 n n') {s s' : Stmt RefId}
    (hs : C.Forms c s s') :
    C.Steps pace w c C.Flows (Lox.execute (n + 1) s) (Lox.execute (n' + 1) s') := by
  have hevaluate := h.evaluate n hlead
  have hexecute := h.execute n true hlead
  cases hs with
  | expression he => exact (hevaluate _ _ _ _ he).bind fun _ _ _ _ _ => .pure .normal
  | print he =>
    exact (hevaluate _ _ _ _ he).bind fun _ _ _ _ hvalue =>
      (Steps.print hvalue).bind fun _ _ _ _ _ => .pure .normal
  | declared hc hname =>
    exact (Steps.define hc hname (.of_callable? rfl)).bind fun _ _ _ _ _ => .pure .normal
  | initialized hc hname he =>
    exact (hevaluate _ _ _ _ he).bind fun _ _ _ _ hvalue =>
      (Steps.define hc hname hvalue).bind fun _ _ _ _ _ => .pure .normal
  | block l hl hbody =>
    refine Steps.get.bind fun _ _ m m' hm => .inFrame hm.here hl .nil fun _ _ => ?_
    exact .inOrder (fun w => hexecute w _) hbody
  | ifThen he hthen =>
    refine (hevaluate _ _ _ _ he).bind fun _ _ _ _ hvalue => ?_
    rw [hvalue.resembles.isTruthy]
    split
    · exact hexecute _ _ _ _ hthen
    · exact .pure .normal
  | ifElse he hthen helse =>
    refine (hevaluate _ _ _ _ he).bind fun _ _ _ _ hvalue => ?_
    rw [hvalue.resembles.isTruthy]
    split
    · exact hexecute _ _ _ _ hthen
    · exact hexecute _ _ _ _ helse
  | «while» he hbody => exact h.loop n hlead _ _ _ _ _ _ he hbody
  | function l hc hlexeme hname hfunctions =>
    exact (Steps.makeFunction hlexeme hfunctions).bind fun _ _ _ _ hvalue =>
      (Steps.define hc hname hvalue).bind fun _ _ _ _ _ => .pure .normal
  | finished => exact .pure (.returned (.of_callable? rfl))
  | returned he =>
    exact (hevaluate _ _ _ _ he).bind fun _ _ _ _ hvalue => .pure (.returned hvalue)

/-- A block around the second statement uses up none of the fuel of the first. -/
theorem Runs.execute_wraps (h : C.Runs pace n') (hpace : pace ≠ none)
    (hlead : pace.Leads 0 n (n' + 1)) {s s' : Stmt RefId} (hs : C.Wraps c s s') :
    C.Steps pace w c C.Flows (Lox.execute n s) (Lox.execute (n' + 1) s') := by
  obtain ⟨l, t, hl, rfl, ht⟩ := hs
  obtain ⟨side, rfl⟩ := Option.ne_none_iff_exists'.mp hpace
  refine .inSecond ((Lox.evolves n).2.2.1 s) hl fun w' _ => ?_
  rw [Step.inOrder_singleton]
  refine h.execute n false ?_ w' _ _ _ ht
  cases side <;> simp only [Pace.Leads, Side.Leads, slack] at hlead ⊢ <;> omega

/-- Programs have corresponding results if all their statements correspond by form, but for blocks
    around some of those of the second program; then one of the two runs has more fuel. -/
theorem runs (hstatements : ∀ b c s s', C.statements b c s s' →
      C.Forms c s s' ∨ pace ≠ none ∧ b = true ∧ C.Wraps c s s') (n' : Nat) : C.Runs pace n' := by
  induction n' with
  | zero =>
    exact ⟨fun n hlead _ _ e _ _ => .exhausted (f := (Lox.evaluate · e)) rfl hlead (by omega),
      fun n hlead _ _ f _ arguments _ paren _ _ _ _ =>
        .exhausted (f := (Lox.call · f arguments paren)) rfl hlead (by omega),
      fun n b hlead _ _ s _ _ => .exhausted (f := (Lox.execute · s)) rfl hlead (slack_le b),
      fun n hlead _ _ e _ s _ _ _ => .exhausted (f := (Lox.loop · e s)) rfl hlead (by omega)⟩
  | succ n' ih =>
    refine ⟨fun n hlead _ _ e _ he => ?_,
      fun n hlead _ _ f _ arguments _ paren _ hf harguments hparen => ?_,
      fun n b hlead _ c s _ hs => ?_, fun n hlead _ _ e _ s _ he hs => ?_⟩
    · exact .of_succ (f := (Lox.evaluate · e)) rfl hlead (by omega) fun k hlead =>
        ih.evaluate_succ (hlead.pred (by omega)) he
    · exact .of_succ (f := (Lox.call · f arguments paren)) rfl hlead (by omega) fun k hlead =>
        ih.call_succ (hlead.pred (by omega)) hf harguments hparen
    · obtain hforms | ⟨hpace, rfl, hwraps⟩ := hstatements b c s _ hs
      · exact .of_succ (f := (Lox.execute · s)) rfl hlead (slack_le b) fun k hlead =>
          ih.execute_forms (hlead.pred (slack_le b)) hforms
      · exact ih.execute_wraps hpace hlead hwraps
    · exact .of_succ (f := (Lox.loop · e s)) rfl hlead (by omega) fun k hlead =>
        ih.loop_succ (hlead.pred (by omega)) he hs

/-- Programs of corresponding statements have corresponding results. -/
theorem Runs.runProgram (h : C.Runs pace n') (hlead : pace.Leads 0 n n')
    {ss ss' : List (Stmt RefId)} (hs : List.Forall₂ (C.statements true c) ss ss') :
    C.Steps pace w c (fun _ _ _ => True) (Lox.runProgram n ss) (Lox.runProgram n' ss') := by
  induction hs generalizing w with
  | nil => exact .pure trivial
  | cons hfirst _ ih =>
    exact (h.execute n true hlead _ _ _ _ hfirst).bind fun _ _ _ _ _ => ih

end Runs

end Comparison

end Lox
