import Lox.Evaluation
import Lox.Proofs.Execution.Store

/-!
What a run leaves alone, whether it ends with a value or with an error. It comes back to the frame
it started in, moves no frame, unbinds no name and takes back no output. A statement may bind
further names in the current frame; an expression binds none in any frame that was there before.
-/

namespace Lox

/-- How the machine may change: by statements, which declare, or by expressions, which do not. -/
structure Machine.Evolves (declaring : Bool) (m m' : Machine) : Prop where
  environment : m'.environment = m.environment
  globals : m'.globals = m.globals
  distances : m'.distances = m.distances
  callDepth : m'.callDepth = m.callDepth
  next_le : m.store.next ≤ m'.store.next
  parent? : ∀ f < m.store.next, m'.store.parent? f = m.store.parent? f
  binds : ∀ f name, m.store.binds f name → m'.store.binds f name
  names : ∀ f < m.store.next, (declaring → f ≠ m.environment) → ∀ name,
    m'.store.binds f name = m.store.binds f name
  output : ∃ printed, m'.output = m.output ++ printed

namespace Machine.Evolves

variable {declaring : Bool} {m m' m'' : Machine}

/-- A machine leaves itself alone. -/
theorem refl (m : Machine) : m.Evolves declaring m :=
  ⟨rfl, rfl, rfl, rfl, Nat.le_refl _, fun _ _ => rfl, fun _ _ h => h, fun _ _ _ _ => rfl,
    "", String.append_empty.symm⟩

theorem trans (h : m.Evolves declaring m') (h' : m'.Evolves declaring m'') :
    m.Evolves declaring m'' where
  environment := h'.environment.trans h.environment
  globals := h'.globals.trans h.globals
  distances := h'.distances.trans h.distances
  callDepth := h'.callDepth.trans h.callDepth
  next_le := Nat.le_trans h.next_le h'.next_le
  parent? f hf := (h'.parent? f (Nat.lt_of_lt_of_le hf h.next_le)).trans (h.parent? f hf)
  binds f name hbinds := h'.binds f name (h.binds f name hbinds)
  names f hf hother name := by
    rw [h'.names f (Nat.lt_of_lt_of_le hf h.next_le) (by rwa [h.environment]) name,
      h.names f hf hother name]
  output := by
    obtain ⟨printed, houtput⟩ := h.output
    obtain ⟨printed', houtput'⟩ := h'.output
    exact ⟨printed ++ printed', by rw [houtput', houtput, String.append_assoc]⟩

theorem weaken (h : m.Evolves false m') : m.Evolves declaring m' :=
  ⟨h.environment, h.globals, h.distances, h.callDepth, h.next_le, h.parent?, h.binds,
    fun f hf _ => h.names f hf (by simp), h.output⟩

/-- More output, and changes of the clock or of the supply of functions. -/
theorem of_store_eq (henvironment : m'.environment = m.environment)
    (hglobals : m'.globals = m.globals) (hdistances : m'.distances = m.distances)
    (hcallDepth : m'.callDepth = m.callDepth) (hstore : m'.store = m.store)
    (houtput : ∃ printed, m'.output = m.output ++ printed) : m.Evolves declaring m' := by
  refine ⟨henvironment, hglobals, hdistances, hcallDepth, ?_, ?_, ?_, ?_, houtput⟩ <;>
    simp [hstore]

/-- A write binds no name that was not bound. -/
theorem write (m : Machine) (f : FrameId) (name : String) (value : Value) :
    m.Evolves declaring { m with store := (m.store.write f name value).2 } where
  environment := rfl
  globals := rfl
  distances := rfl
  callDepth := rfl
  next_le := by simp
  parent? f hf := by simp
  binds g other hbinds := by simpa [Store.binds_write] using hbinds
  names g hg _ other := Store.binds_write ..
  output := ⟨"", String.append_empty.symm⟩

/-- A declaration binds in the current frame only, if at all. -/
theorem define (m : Machine) (name : String) (value : Value) :
    m.Evolves true { m with store := m.store.define m.environment name value } where
  environment := rfl
  globals := rfl
  distances := rfl
  callDepth := rfl
  next_le := by simp
  parent? f hf := by simp
  binds g other hbinds := by simp [Store.binds_define, hbinds]
  names g hg hother other := by
    have hne : (m.environment == g) = false := by simpa using Ne.symm (hother rfl)
    simp [Store.binds_define, hne]
  output := ⟨"", String.append_empty.symm⟩

end Machine.Evolves

/-- No frame loses its number or its place in a chain, and the globals stay where they are. -/
structure Machine.Precedes (m m' : Machine) : Prop where
  globals : m'.globals = m.globals
  next_le : m.store.next ≤ m'.store.next
  parent? : ∀ f < m.store.next, m'.store.parent? f = m.store.parent? f

namespace Machine

variable {m m' m'' : Machine} {declaring : Bool} {f g : FrameId} {links : Nat}

/-- What was there before is still there. -/
theorem Evolves.precedes (h : m.Evolves declaring m') : m.Precedes m' :=
  ⟨h.globals, h.next_le, h.parent?⟩

namespace Precedes

theorem refl (m : Machine) : m.Precedes m :=
  ⟨rfl, Nat.le_refl _, fun _ _ => rfl⟩

theorem trans (h : m.Precedes m') (h' : m'.Precedes m'') : m.Precedes m'' where
  globals := h'.globals.trans h.globals
  next_le := Nat.le_trans h.next_le h'.next_le
  parent? f hf := (h'.parent? f (Nat.lt_of_lt_of_le hf h.next_le)).trans (h.parent? f hf)

/-- Links stay. -/
theorem parent?_eq_some (h : m.Precedes m') (f g : FrameId) (hg : m.store.parent? f = some g) :
    m'.store.parent? f = some g := by
  rw [h.parent? f (Store.lt_next_of_parent? hg), hg]

theorem frameAbove? (h : m.Precedes m') (hg : m.store.frameAbove? f links = some g) :
    m'.store.frameAbove? f links = some g :=
  Store.frameAbove?_mono h.parent?_eq_some hg

/-- A frame stays on the chains that it is on. -/
theorem onChain (h : m.Precedes m') (hg : m.store.OnChain f g) : m'.store.OnChain f g :=
  hg.mono h.parent?_eq_some

end Precedes

end Machine

/-- The machine in a new frame, as `Step.inFrame` runs its body. -/
def Machine.entered (m : Machine) (enclosing : FrameId) (bindings : List (String × Value)) :
    Machine :=
  { m with
    store := m.store.push (bindings.foldl (fun f b => f.define b.1 b.2) (.empty (some enclosing)))
    environment := m.store.next }

/-- The machine in one more call, as `Step.asCall` runs its body. -/
def Machine.called (m : Machine) : Machine :=
  { m with callDepth := m.callDepth + 1 }

/-- The parameters of a function with their values, as `call` binds them. -/
def Closure.bindings (f : Closure) (arguments : List Value) : List (String × Value) :=
  (f.parameters.map (·.lexeme)).zip arguments

/-- Names that are bound in a new frame are no names of an old one. -/
theorem Machine.Evolves.leave {m m' : Machine} {enclosing : FrameId}
    {bindings : List (String × Value)} (h : (m.entered enclosing bindings).Evolves true m') :
    m.Evolves false { m' with environment := m.environment } where
  environment := rfl
  globals := h.globals
  distances := h.distances
  callDepth := h.callDepth
  next_le := by
    have hle := h.next_le
    simp only [entered, Store.next_push] at hle
    exact Nat.le_of_succ_le hle
  parent? f hf := by
    have hnext : f < (m.entered enclosing bindings).store.next := by
      simpa only [entered, Store.next_push] using Nat.lt_succ_of_lt hf
    have hparent := h.parent? f hnext
    rw [hparent]
    exact Store.parent?_push hf
  binds f name hbinds := by
    refine h.binds f name ?_
    rw [entered, Store.binds_push (Store.lt_next_of_binds hbinds)]
    exact hbinds
  names f hf _ name := by
    have hnames := h.names f (by simpa only [entered, Store.next_push] using Nat.lt_succ_of_lt hf)
      (fun _ => Nat.ne_of_lt hf) name
    rw [hnames]
    exact Store.binds_push hf
  output := h.output

/-- A call that is over leaves the depth as it was. -/
theorem Machine.Evolves.uncall {m m' : Machine} (h : m.called.Evolves false m') :
    m.Evolves false { m' with callDepth := m'.callDepth - 1 } where
  environment := h.environment
  globals := h.globals
  distances := h.distances
  callDepth := by
    have hdepth := h.callDepth
    simp only [called] at hdepth
    simp [hdepth]
  next_le := h.next_le
  parent? := h.parent?
  binds := h.binds
  names := h.names
  output := h.output

namespace Step

variable {α β : Type} {declaring : Bool}

/-- The machine afterwards, whether or not there is a value. -/
def after (step : Step α) (m : Machine) : Machine :=
  match step m with
  | .ok _ m' | .error _ m' => m'

/-- The step changes a machine as `Machine.Evolves` allows. -/
def Evolves (declaring : Bool) (step : Step α) : Prop :=
  ∀ m : Machine, m.Evolves declaring (step.after m)

theorem get_apply (m : Machine) : (MonadState.get : Step Machine) m = .ok m m := rfl

/-- The second step finds the machine that the first leaves, unless the first is stopped. -/
theorem bind_apply (step : Step α) (next : α → Step β) (m : Machine) :
    (step >>= next) m =
      match step m with
      | .ok a m' => next a m'
      | .error stop m' => .error stop m' := by
  change EStateM.bind step next m = _
  unfold EStateM.bind
  cases step m <;> rfl

theorem bind_of_ok {step : Step α} {next : α → Step β} {m m' : Machine} {a : α}
    (h : step m = .ok a m') : (step >>= next) m = next a m' := by
  rw [bind_apply, h]

/-- If both steps together have a value, the first has one and so has the second behind it. -/
theorem exists_of_bind_ok {step : Step α} {next : α → Step β} {m m' : Machine} {b : β}
    (h : (step >>= next) m = .ok b m') : ∃ a m₁, step m = .ok a m₁ ∧ next a m₁ = .ok b m' := by
  rw [bind_apply] at h
  cases hstep : step m with
  | ok a m₁ =>
    rw [hstep] at h
    exact ⟨a, m₁, rfl, h⟩
  | error stop m₁ =>
    rw [hstep] at h
    cases h

/-- An operation with a value did not fail. -/
theorem eq_ok_of_ofExcept {token : Token} {result : Except RuntimeProblem α} {a : α}
    {m m' : Machine} (h : ofExcept token result m = .ok a m') : result = .ok a := by
  cases result with
  | ok b =>
    cases h
    rfl
  | error problem => cases h

/-- Carries on with `rest`, unless the step returns. -/
def andThen (step rest : Step Flow) : Step Flow := do
  match ← step with
  | .normal => rest
  | .returned value => pure (.returned value)

/-- What is done behind a step that has ended so. -/
def followed (rest : Step Flow) : Flow → Step Flow
  | .normal => rest
  | .returned value => pure (.returned value)

/-- Whether anything is left to do depends on how the step ended. -/
theorem andThen_eq_bind (step rest : Step Flow) : step.andThen rest = step >>= rest.followed := by
  refine congrArg (step >>= ·) (funext fun flow => ?_)
  cases flow <;> rfl

/-- The first of several statements, and then the others unless it returns. -/
theorem inOrder_cons (run : Stmt RefId → Step Flow) (s : Stmt RefId) (rest : List (Stmt RefId)) :
    inOrder run (s :: rest) = (run s).andThen (inOrder run rest) := rfl

theorem inOrder_singleton (run : Stmt RefId → Step Flow) (s : Stmt RefId) :
    inOrder run [s] = run s := by
  funext m
  rw [inOrder_cons, andThen, bind_apply]
  cases run s m with
  | ok flow m' => cases flow <;> rfl
  | error => rfl

/-- The end of a read: the value that was found, if there is one. -/
def reading (name : Token) : Option Value → Step Value
  | some value => pure value
  | none => fail name (.undefined name.lexeme)

/-- The end of an assignment: whether a binding was there to be written, and the store. -/
def writing (name : Token) (written : Bool × Store) : Step Unit := fun m =>
  if written.1 then .ok () { m with store := written.2 }
  else .error (.error ⟨name, .undefined name.lexeme⟩) { m with store := written.2 }

variable {ref : RefId} {distance : Nat} {m : Machine}

/-- A reference with a distance is read that many links up from the current frame. -/
theorem lookUp_of_some (h : m.distances[ref]? = some distance) (name : Token) :
    lookUp ref name m = reading name (m.store.getAt? m.environment distance name.lexeme) m := by
  rw [lookUp, bind_apply, get_apply]
  dsimp only
  rw [h]
  dsimp only
  cases m.store.getAt? m.environment distance name.lexeme <;> rfl

/-- A reference without a distance is read among the globals. -/
theorem lookUp_of_none (h : m.distances[ref]? = none) (name : Token) :
    lookUp ref name m = reading name (m.store.get? m.globals name.lexeme) m := by
  rw [lookUp, bind_apply, get_apply]
  dsimp only
  rw [h]
  dsimp only
  cases m.store.get? m.globals name.lexeme <;> rfl

/-- An assignment through a distance is made that many links up from the current frame. -/
theorem assign_of_some (h : m.distances[ref]? = some distance) (name : Token) (value : Value) :
    assign ref name value m =
      writing name (m.store.assignAt m.environment distance name.lexeme value) m := by
  unfold assign writing
  simp only [h]

/-- An assignment without a distance is made among the globals. -/
theorem assign_of_none (h : m.distances[ref]? = none) (name : Token) (value : Value) :
    assign ref name value m =
      writing name (m.store.assign m.globals name.lexeme value) m := by
  unfold assign writing
  simp only [h]

/-- Nothing but the store is touched. -/
theorem after_writing (name : Token) (written : Bool × Store) (m : Machine) :
    (writing name written).after m = { m with store := written.2 } := by
  unfold after writing
  cases written.1 <;> rfl

/-- An assignment writes one binding, or none. -/
theorem after_assign (ref : RefId) (name : Token) (value : Value) (m : Machine) :
    (∃ f, (m.store.OnChain m.environment f ∨ m.store.OnChain m.globals f) ∧
      (assign ref name value).after m =
        { m with store := (m.store.write f name.lexeme value).2 }) ∨
      (assign ref name value).after m = m := by
  have hwriting {written : Bool × Store} (h : assign ref name value m = writing name written m) :
      (assign ref name value).after m = { m with store := written.2 } := by
    rw [← after_writing name written m, after, after, h]
  cases hentry : m.distances[ref]? with
  | none =>
    rw [hwriting (assign_of_none hentry name value)]
    obtain ⟨f, hf, h⟩ | h := Store.assign_eq (s := m.store)
    · exact .inl ⟨f, .inr hf, by rw [h]⟩
    · exact .inr (by rw [h])
  | some distance =>
    rw [hwriting (assign_of_some hentry name value)]
    obtain ⟨f, hf, h⟩ | h := Store.assignAt_eq (s := m.store)
    · exact .inl ⟨f, .inl hf, by rw [h]⟩
    · exact .inr (by rw [h])

/-- The body runs in a new frame, and however it ends the old one is current again. -/
theorem inFrame_apply (enclosing : FrameId) (bindings : List (String × Value)) (body : Step α)
    (m : Machine) :
    inFrame enclosing bindings body m =
      match body (m.entered enclosing bindings) with
      | .ok a m' => .ok a { m' with environment := m.environment }
      | .error stop m' => .error stop { m' with environment := m.environment } := rfl

/-- If there is a value, the body has it. -/
theorem exists_of_inFrame_ok {enclosing : FrameId} {bindings : List (String × Value)}
    {body : Step α} {m m' : Machine} {a : α} (h : inFrame enclosing bindings body m = .ok a m') :
    ∃ m₁, body (m.entered enclosing bindings) = .ok a m₁ ∧
      m' = { m₁ with environment := m.environment } := by
  rw [inFrame_apply] at h
  cases hbody : body (m.entered enclosing bindings) with
  | ok b m₁ =>
    rw [hbody] at h
    cases h
    exact ⟨m₁, rfl, rfl⟩
  | error stop m₁ =>
    rw [hbody] at h
    cases h

/-- Where a call may still be made, its body runs one call deeper, and however it ends the depth is
    restored. -/
theorem asCall_apply_of_lt (paren : Token) (body : Step α) (h : m.callDepth < maxCallDepth) :
    asCall paren body m =
      match body m.called with
      | .ok a m' => .ok a { m' with callDepth := m'.callDepth - 1 }
      | .error stop m' => .error stop { m' with callDepth := m'.callDepth - 1 } := by
  unfold asCall
  rw [if_neg (Nat.not_le.mpr h)]
  rfl

theorem exists_of_asCall_ok {paren : Token} {body : Step α} {m m' : Machine} {a : α}
    (h : asCall paren body m = .ok a m') : ∃ m₁, m.callDepth < maxCallDepth ∧
      body m.called = .ok a m₁ ∧ m' = { m₁ with callDepth := m₁.callDepth - 1 } := by
  rcases Nat.lt_or_ge m.callDepth maxCallDepth with hdepth | hdepth
  · rw [asCall_apply_of_lt paren body hdepth] at h
    cases hbody : body m.called with
    | ok b m₁ =>
      rw [hbody] at h
      cases h
      exact ⟨m₁, hdepth, rfl, rfl⟩
    | error stop m₁ =>
      rw [hbody] at h
      cases h
  · unfold asCall at h
    rw [if_pos hdepth] at h
    cases h

/-- Where no call may be made any more, the machine is left alone. -/
theorem asCall_apply_of_le (paren : Token) (body : Step α) (h : maxCallDepth ≤ m.callDepth) :
    asCall paren body m = .error (.error ⟨paren, .stackOverflow⟩) m :=
  if_pos h

namespace Evolves

theorem pure (a : α) : (Pure.pure a : Step α).Evolves declaring :=
  fun m => .refl m

theorem throw (stop : Stop) : (MonadExcept.throw stop : Step α).Evolves declaring :=
  fun m => .refl m

theorem bind {step : Step α} {next : α → Step β} (h : step.Evolves declaring)
    (hnext : ∀ a, (next a).Evolves declaring) : (step >>= next).Evolves declaring := by
  intro m
  have hfirst := h m
  unfold after at hfirst ⊢
  rw [bind_apply]
  cases hstep : step m with
  | error stop m' => simpa only [hstep] using hfirst
  | ok a m' =>
    rw [hstep] at hfirst
    exact hfirst.trans (hnext a m')

theorem of_ok {step : Step α} (h : step.Evolves declaring) {a : α} {m m' : Machine}
    (hok : step m = .ok a m') : m.Evolves declaring m' := by
  have hafter := h m
  rwa [after, hok] at hafter

theorem weaken {step : Step α} (h : step.Evolves false) : step.Evolves declaring :=
  fun m => (h m).weaken

theorem ofExcept (token : Token) (result : Except RuntimeProblem α) :
    (Step.ofExcept token result).Evolves declaring := by
  cases result with
  | ok a => exact pure a
  | error problem => exact throw _

theorem get : (MonadState.get : Step Machine).Evolves declaring :=
  fun m => .refl m

theorem lookUp (ref : RefId) (name : Token) : (Step.lookUp ref name).Evolves declaring := by
  intro m
  have hreading (found : Option Value) : (reading name found).Evolves declaring := by
    cases found with
    | none => exact throw _
    | some value => exact pure value
  unfold after
  cases h : m.distances[ref]? with
  | none =>
    rw [lookUp_of_none h]
    exact hreading _ m
  | some distance =>
    rw [lookUp_of_some h]
    exact hreading _ m

theorem assign (ref : RefId) (name : Token) (value : Value) :
    (Step.assign ref name value).Evolves declaring := by
  intro m
  obtain ⟨f, -, h⟩ | h := after_assign ref name value m
  · rw [h]
    exact .write m f name.lexeme value
  · rw [h]
    exact .refl m

theorem define (name : Token) (value : Value) : (Step.define name value).Evolves true :=
  fun m => .define m name.lexeme value

theorem makeFunction (name : Token) (parameters : List Token) (body : List (Stmt RefId)) :
    (Step.makeFunction name parameters body).Evolves declaring :=
  fun _ => .of_store_eq rfl rfl rfl rfl rfl ⟨"", String.append_empty.symm⟩

theorem print (value : Value) : (Step.print value).Evolves declaring :=
  fun _ => .of_store_eq rfl rfl rfl rfl rfl ⟨value.text ++ "\n", String.append_assoc ..⟩

theorem readClock : Step.readClock.Evolves declaring :=
  fun _ => .of_store_eq rfl rfl rfl rfl rfl ⟨"", String.append_empty.symm⟩

/-- What the body declares it declares in its own frame. -/
theorem inFrame {enclosing : FrameId} {bindings : List (String × Value)} {body : Step α}
    (h : body.Evolves true) : (Step.inFrame enclosing bindings body).Evolves false := by
  intro m
  have hbody := h (m.entered enclosing bindings)
  unfold after at hbody ⊢
  rw [inFrame_apply]
  cases hresult : body (m.entered enclosing bindings) with
  | ok a m' | error stop m' =>
    rw [hresult] at hbody
    exact hbody.leave

theorem asCall {paren : Token} {body : Step α} (h : body.Evolves false) :
    (Step.asCall paren body).Evolves false := by
  intro m
  unfold after
  rcases Nat.lt_or_ge m.callDepth maxCallDepth with hdepth | hdepth
  · have hbody := h m.called
    unfold after at hbody
    rw [asCall_apply_of_lt paren body hdepth]
    cases hresult : body m.called with
    | ok a m' | error stop m' =>
      rw [hresult] at hbody
      exact hbody.uncall
  · rw [asCall_apply_of_le paren body hdepth]
    exact .refl m

theorem values {evaluate : Expr RefId → Step Value} (h : ∀ e, (evaluate e).Evolves declaring)
    (es : List (Expr RefId)) : (Step.values evaluate es).Evolves declaring := by
  induction es with
  | nil => exact pure []
  | cons e es ih => exact (h e).bind fun _ => ih.bind fun _ => pure _

theorem inOrder {run : Stmt RefId → Step Flow} (h : ∀ s, (run s).Evolves declaring)
    (body : List (Stmt RefId)) : (Step.inOrder run body).Evolves declaring := by
  induction body with
  | nil => exact pure _
  | cons s rest ih =>
    refine (h s).bind fun flow => ?_
    cases flow with
    | normal => exact ih
    | returned value => exact pure _

theorem native (f : Native) (arguments : List Value) (paren : Token) :
    (f.call arguments paren).Evolves declaring := by
  unfold Native.call
  cases f.action with
  | clock => exact readClock
  | echo | ignore => exact pure _
  | fail => exact throw _

end Evolves

end Step

/-- One bound serves for all four, because each contains others. -/
theorem evolves (fuel : Nat) :
    (∀ e, (evaluate fuel e).Evolves false) ∧
    (∀ f arguments paren, (call fuel f arguments paren).Evolves false) ∧
    (∀ s, (execute fuel s).Evolves true) ∧
    ∀ condition body, (loop fuel condition body).Evolves true := by
  induction fuel with
  | zero =>
    exact ⟨fun _ => .throw _, fun _ _ _ => .throw _, fun _ => .throw _, fun _ _ => .throw _⟩
  | succ fuel ih =>
    obtain ⟨hevaluate, hcall, hexecute, hloop⟩ := ih
    refine ⟨fun e => ?_, fun f arguments paren => ?_, fun s => ?_, fun condition body => ?_⟩
    · cases e with
      | literal => exact .pure _
      | grouping inner => exact hevaluate inner
      | unary operator operand => exact (hevaluate operand).bind fun _ => .ofExcept _ _
      | binary left operator right =>
        exact (hevaluate left).bind fun _ => (hevaluate right).bind fun _ => .ofExcept _ _
      | logical left operator right =>
        refine (hevaluate left).bind fun _ => ?_
        split
        · exact .pure _
        · exact hevaluate right
      | var ref name => exact .lookUp ref name
      | assign ref name value =>
        exact (hevaluate value).bind fun _ => (Step.Evolves.assign ref name _).bind fun _ => .pure _
      | call callee paren arguments =>
        exact (hevaluate callee).bind fun _ => (Step.Evolves.values hevaluate arguments).bind
          fun _ => (Step.Evolves.ofExcept paren _).bind fun _ => hcall _ _ _
    · cases f with
      | native f => exact .native f arguments paren
      | function f =>
        exact (Step.Evolves.asCall (.inFrame (.inOrder hexecute f.body))).bind fun _ => .pure _
    · cases s with
      | expression e => exact (hevaluate e).weaken.bind fun _ => .pure _
      | print e =>
        exact (hevaluate e).weaken.bind fun _ => (Step.Evolves.print _).bind fun _ => .pure _
      | var name initializer =>
        cases initializer with
        | none => exact (Step.Evolves.define name _).bind fun _ => .pure _
        | some e =>
          exact (hevaluate e).weaken.bind fun _ =>
            (Step.Evolves.define name _).bind fun _ => .pure _
      | block body =>
        exact Step.Evolves.get.bind fun m => (Step.Evolves.inFrame (.inOrder hexecute body)).weaken
      | «if» condition thenBranch elseBranch =>
        refine (hevaluate condition).weaken.bind fun _ => ?_
        split
        · exact hexecute thenBranch
        · cases elseBranch with
          | none => exact .pure _
          | some elseBranch => exact hexecute elseBranch
      | «while» condition body => exact hloop condition body
      | function name parameters body =>
        exact (Step.Evolves.makeFunction name parameters body).bind fun _ =>
          (Step.Evolves.define name _).bind fun _ => .pure _
      | «return» keyword value =>
        cases value with
        | none => exact .pure _
        | some e => exact (hevaluate e).weaken.bind fun _ => .pure _
    · refine (hevaluate condition).weaken.bind fun _ => ?_
      split
      · refine (hexecute body).bind fun flow => ?_
        cases flow with
        | normal => exact hloop condition body
        | returned value => exact .pure _
      · exact .pure _

/-- A program may declare globals. -/
theorem evolves_runProgram (n : Nat) (ss : List (Stmt RefId)) :
    (runProgram n ss).Evolves true := by
  induction ss with
  | nil => exact .pure _
  | cons s ss ih => exact ((evolves n).2.2.1 s).bind fun _ => ih

end Lox
