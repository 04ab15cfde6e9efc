import Lox.Proofs.Execution.Fuel
import Lox.Proofs.Execution.Preservation

/-!
Only loops go on for ever. Without them a run nests no deeper than what it runs, and each call in
progress adds at most the size of a function's body; there are never more than `maxCallDepth` calls
in progress. So the fuel that a run can use up is bounded, whatever the functions do.
-/

namespace Lox

variable {ρ : Type}

mutual

/-- A loop stands in the statement, or in a function in it. -/
def Stmt.loops : Stmt ρ → Bool
  | .expression _ | .print _ | .var _ _ | .return _ _ => false
  | .block body => Stmt.loopsAny body
  | .if _ thenBranch none => thenBranch.loops
  | .if _ thenBranch (some elseBranch) => thenBranch.loops || elseBranch.loops
  | .while _ _ => true
  | .function _ _ body => Stmt.loopsAny body

def Stmt.loopsAny : List (Stmt ρ) → Bool
  | [] => false
  | s :: rest => s.loops || Stmt.loopsAny rest

end

/-- A program has no loop if none of its statements has one. -/
theorem Stmt.loopsAny_eq_false_iff {ss : List (Stmt ρ)} :
    Stmt.loopsAny ss = false ↔ ∀ s ∈ ss, s.loops = false := by
  induction ss with
  | nil => simp [Stmt.loopsAny]
  | cons s rest ih => simp [Stmt.loopsAny, ih]

mutual

/-- Numbering makes no loop. -/
theorem Stmt.loops_number (next : RefId) (s : Stmt ρ) : (s.number next).1.loops = s.loops := by
  cases s with
  | var name initializer => cases initializer <;> rfl
  | block body | function name parameters body => exact Stmt.loopsAny_numberAll next body
  | «if» condition thenBranch elseBranch =>
    have hthen := Stmt.loops_number (condition.number next).2 thenBranch
    cases elseBranch with
    | none => exact hthen
    | some elseBranch => exact congrArg₂ or hthen (Stmt.loops_number _ elseBranch)
  | «return» keyword value => cases value <;> rfl
  | _ => rfl

theorem Stmt.loopsAny_numberAll (next : RefId) (ss : List (Stmt ρ)) :
    Stmt.loopsAny (Stmt.numberAll next ss).1 = Stmt.loopsAny ss := by
  cases ss with
  | nil => rfl
  | cons s rest => exact congrArg₂ or (Stmt.loops_number next s) (Stmt.loopsAny_numberAll _ rest)

end

/-- A function has a body of at most this size, without loops. -/
def Value.Loopless (size : Nat) : Value → Prop
  | .function f => sizeOf f.body ≤ size ∧ Stmt.loopsAny f.body = false
  | _ => True

def Callable.Loopless (size : Nat) : Callable → Prop
  | .function f => Value.Loopless size (.function f)
  | .native _ => True

/-- All functions that are bound to a name have bodies of at most this size, without loops. -/
def Machine.Loopless (size : Nat) (m : Machine) : Prop :=
  ∀ f name value, m.store.read? f name = some value → value.Loopless size

variable {α β : Type} {size depth n : Nat} {value : Value} {m : Machine}

/-- Only functions of the program could have a loop. -/
theorem Value.Loopless.of_callable? (h : value.callable? = none) : value.Loopless size := by
  cases value with
  | function f => cases h
  | _ => trivial

/-- The bound on bodies may be raised. -/
theorem Value.Loopless.mono {size' : Nat} (h : value.Loopless size) (hle : size ≤ size') :
    value.Loopless size' := by
  cases value with
  | function f => exact ⟨h.1.trans hle, h.2⟩
  | _ => trivial

theorem Machine.Loopless.mono {size' : Nat} (h : m.Loopless size) (hle : size ≤ size') :
    m.Loopless size' :=
  fun f name value hread => (h f name value hread).mono hle

/-- The end of a run that had the fuel for it, with this many calls in progress as before. -/
inductive Halted (size depth : Nat) (good : α → Prop) : EStateM.Result Stop Machine α → Prop
  | ok {a : α} {m : Machine} (ha : good a) (hm : m.Loopless size) (hdepth : m.callDepth = depth) :
      Halted size depth good (.ok a m)
  | error {e : RuntimeError} {m : Machine} (hm : m.Loopless size) (hdepth : m.callDepth = depth) :
      Halted size depth good (.error (.error e) m)

namespace Step

/-- With so many calls in progress the step does not run out of fuel. -/
def Halts (size depth : Nat) (good : α → Prop) (step : Step α) : Prop :=
  ∀ m : Machine, m.Loopless size → m.callDepth = depth → Halted size depth good (step m)

namespace Halts

variable {good : α → Prop} {good' : β → Prop}

theorem pure {a : α} (ha : good a) : (Pure.pure a : Step α).Halts size depth good :=
  fun _ hm hdepth => .ok ha hm hdepth

theorem fail (token : Token) (problem : RuntimeProblem) :
    (Step.fail token problem : Step α).Halts size depth good :=
  fun _ hm hdepth => .error hm hdepth

/-- Both parts have to halt, the second wherever the first leaves the machine. -/
theorem bind {step : Step α} {next : α → Step β} (h : step.Halts size depth good)
    (hnext : ∀ a, good a → (next a).Halts size depth good') :
    (step >>= next).Halts size depth good' := by
  intro m hm hdepth
  rw [bind_apply]
  cases hstep : step m with
  | ok a m' =>
    have hfirst := h m hm hdepth
    rw [hstep] at hfirst
    obtain ⟨ha, hm', hdepth'⟩ := hfirst
    exact hnext a ha m' hm' hdepth'
  | error stop m' =>
    have hfirst := h m hm hdepth
    rw [hstep] at hfirst
    cases hfirst with
    | error hm' hdepth' => exact .error hm' hdepth'

theorem ofExcept {token : Token} {result : Except RuntimeProblem α}
    (h : ∀ a, result = .ok a → good a) : (Step.ofExcept token result).Halts size depth good := by
  cases result with
  | ok a => exact pure (h a rfl)
  | error problem => exact fail token problem

theorem get : (MonadState.get : Step Machine).Halts size depth fun _ => True :=
  fun _ hm hdepth => .ok trivial hm hdepth

/-- What is read was stored, and no function that is stored has a loop. -/
theorem lookUp (ref : RefId) (name : Token) :
    (Step.lookUp ref name).Halts size depth (Value.Loopless size) := by
  intro m hm hdepth
  have hreading (found : Option Value) (hfound : ∀ value ∈ found, value.Loopless size) :
      (reading name found).Halts size depth (Value.Loopless size) := by
    cases found with
    | none => exact fail _ _
    | some value => exact pure (hfound value rfl)
  cases h : m.distances[ref]? with
  | none =>
    rw [lookUp_of_none h]
    refine hreading _ (fun value hvalue => ?_) m hm hdepth
    obtain ⟨f, -, hread⟩ := Option.bind_eq_some_iff.mp hvalue
    exact hm f _ value hread
  | some distance =>
    rw [lookUp_of_some h]
    refine hreading _ (fun value hvalue => ?_) m hm hdepth
    obtain ⟨f, -, hread⟩ := Option.bind_eq_some_iff.mp hvalue
    exact hm f _ value hread

/-- A binding is written that was there, or none. -/
theorem writing {name : Token} {written : Bool × Store} (hdepth : m.callDepth = depth)
    (hwritten : ({ m with store := written.2 } : Machine).Loopless size) :
    Halted size depth (fun _ => True) (Step.writing name written m) := by
  unfold Step.writing
  split
  · exact .ok trivial hwritten hdepth
  · exact .error hwritten hdepth

/-- An assignment stores a value that is known to have no loop. -/
theorem assign (ref : RefId) (name : Token) (hvalue : value.Loopless size) :
    (Step.assign ref name value).Halts size depth fun _ => True := by
  intro m hm hdepth
  have hwritten (f : FrameId) :
      ({ m with store := (m.store.write f name.lexeme value).2 } : Machine).Loopless size := by
    intro g other found hread
    rcases Store.read?_write hread with rfl | hread
    · exact hvalue
    · exact hm g other found hread
  cases h : m.distances[ref]? with
  | none =>
    rw [assign_of_none h]
    refine writing hdepth ?_
    obtain ⟨f, -, h⟩ | h := Store.assign_eq (s := m.store)
    · rw [h]
      exact hwritten f
    · rw [h]
      exact hm
  | some distance =>
    rw [assign_of_some h]
    refine writing hdepth ?_
    obtain ⟨f, -, h⟩ | h := Store.assignAt_eq (s := m.store)
    · rw [h]
      exact hwritten f
    · rw [h]
      exact hm

theorem define (name : Token) (hvalue : value.Loopless size) :
    (Step.define name value).Halts size depth fun _ => True := by
  intro m hm hdepth
  refine .ok trivial (fun f other found hread => ?_) hdepth
  rcases Store.read?_define hread with rfl | hread
  · exact hvalue
  · exact hm f other found hread

/-- A function that is declared has a body of the program, which is no larger than the program. -/
theorem makeFunction (name : Token) (parameters : List Token) {body : List (Stmt RefId)}
    (hsize : sizeOf body ≤ size) (hbody : Stmt.loopsAny body = false) :
    (Step.makeFunction name parameters body).Halts size depth (Value.Loopless size) :=
  fun _ hm hdepth => .ok ⟨hsize, hbody⟩ hm hdepth

theorem print (value : Value) : (Step.print value).Halts size depth fun _ => True :=
  fun _ hm hdepth => .ok trivial hm hdepth

theorem readClock : Step.readClock.Halts size depth (Value.Loopless size) :=
  fun _ hm hdepth => .ok trivial hm hdepth

/-- The arguments that are bound have no loop either. -/
theorem inFrame {enclosing : FrameId} {bindings : List (String × Value)} {body : Step α}
    (hbindings : ∀ b ∈ bindings, b.2.Loopless size) (h : body.Halts size depth good) :
    (Step.inFrame enclosing bindings body).Halts size depth good := by
  intro m hm hdepth
  have hentered : (m.entered enclosing bindings).Loopless size := by
    intro f name value hread
    rw [Machine.entered, Store.read?_push] at hread
    split at hread
    · rcases Frame.get?_foldl_define hread with ⟨b, hb, rfl⟩ | hempty
      · exact hbindings b hb
      · simp [Frame.empty, Frame.get?] at hempty
    · exact hm f name value hread
  have hbody := h _ hentered hdepth
  rw [inFrame_apply]
  generalize body (m.entered enclosing bindings) = result at hbody ⊢
  cases hbody with
  | ok ha hm' hdepth' => exact .ok ha hm' hdepth'
  | error hm' hdepth' => exact .error hm' hdepth'

/-- A call that is one too many ends at once. -/
theorem asCall {paren : Token} {body : Step α}
    (h : depth < maxCallDepth → body.Halts size (depth + 1) good) :
    (Step.asCall paren body).Halts size depth good := by
  intro m hm hdepth
  rcases Nat.lt_or_ge m.callDepth maxCallDepth with hroom | hfull
  · have hbody := h (hdepth ▸ hroom) m.called hm (congrArg (· + 1) hdepth)
    rw [asCall_apply_of_lt paren body hroom]
    generalize body m.called = result at hbody ⊢
    cases hbody with
    | ok ha hm' hdepth' => exact .ok ha hm' (congrArg (· - 1) hdepth')
    | error hm' hdepth' => exact .error hm' (congrArg (· - 1) hdepth')
  · rw [asCall_apply_of_le paren body hfull]
    exact .error hm hdepth

/-- It is enough that each argument halts. -/
theorem values {evaluate : Expr RefId → Step Value} {es : List (Expr RefId)}
    (h : ∀ e ∈ es, (evaluate e).Halts size depth (Value.Loopless size)) :
    (Step.values evaluate es).Halts size depth fun values =>
      ∀ value ∈ values, value.Loopless size := by
  induction es with
  | nil => exact pure (by simp)
  | cons e es ih =>
    obtain ⟨hfirst, hrest⟩ := List.forall_mem_cons.mp h
    refine hfirst.bind fun value hvalue => (ih hrest).bind fun values hvalues => pure ?_
    exact List.forall_mem_cons.mpr ⟨hvalue, hvalues⟩

/-- What a statement returns is as it should be. -/
def Returned (size : Nat) : Flow → Prop
  | .normal => True
  | .returned value => value.Loopless size

/-- It is enough that each statement halts. -/
theorem inOrder {run : Stmt RefId → Step Flow} {ss : List (Stmt RefId)}
    (h : ∀ s ∈ ss, (run s).Halts size depth (Returned size)) :
    (Step.inOrder run ss).Halts size depth (Returned size) := by
  induction ss with
  | nil => exact pure trivial
  | cons s rest ih =>
    obtain ⟨hfirst, hrest⟩ := List.forall_mem_cons.mp h
    refine hfirst.bind fun flow hflow => ?_
    cases flow with
    | normal => exact ih hrest
    | returned value => exact pure hflow

theorem native (f : Native) {arguments : List Value}
    (harguments : ∀ value ∈ arguments, value.Loopless size) (paren : Token) :
    (f.call arguments paren).Halts size depth (Value.Loopless size) := by
  unfold Native.call
  cases f.action with
  | clock => exact readClock
  | echo =>
    refine pure ?_
    cases arguments with
    | nil => trivial
    | cons value arguments => exact harguments value List.mem_cons_self
  | ignore => exact pure trivial
  | fail => exact fail _ _

end Halts

end Step

/-- The fuel that further calls may need. -/
def reserve (size depth : Nat) : Nat :=
  (maxCallDepth - depth) * size

/-- One more call takes the fuel of one more body. -/
theorem reserve_of_lt (h : depth < maxCallDepth) :
    reserve size depth = reserve size (depth + 1) + size := by
  have hone : maxCallDepth - depth = maxCallDepth - (depth + 1) + 1 := by omega
  rw [reserve, hone, Nat.succ_mul, reserve]

/-- With so much fuel no expression and no statement without loops runs out of it, if there is as
    much as it has parts and in reserve for each call to come. -/
structure Suffices (size n : Nat) : Prop where
  evaluate : ∀ depth e, sizeOf e + reserve size depth ≤ n →
    (evaluate n e).Halts size depth (Value.Loopless size)
  call : ∀ depth f arguments paren, f.Loopless size → (∀ value ∈ arguments, value.Loopless size) →
    reserve size depth < n → (call n f arguments paren).Halts size depth (Value.Loopless size)
  execute : ∀ depth s, s.loops = false → sizeOf s ≤ size → sizeOf s + reserve size depth ≤ n →
    (execute n s).Halts size depth (Step.Halts.Returned size)

namespace Suffices

/-- Nothing fits into no fuel at all. -/
theorem zero (size : Nat) : Suffices size 0 where
  evaluate depth e hn := by cases e <;> simp +arith at hn
  call depth f arguments paren _ _ hn := absurd hn (Nat.not_lt_zero _)
  execute depth s _ _ hn := by cases s <;> simp +arith at hn

/-- The parts of an expression are smaller than the expression. -/
theorem evaluate_succ (h : Suffices size n) (e : Expr RefId)
    (hn : sizeOf e + reserve size depth ≤ n + 1) :
    (Lox.evaluate (n + 1) e).Halts size depth (Value.Loopless size) := by
  cases e with
  | literal value =>
    refine .pure ?_
    cases value <;> trivial
  | grouping inner =>
    rw [Expr.grouping.sizeOf_spec] at hn
    exact h.evaluate depth inner (by omega)
  | unary operator operand =>
    rw [Expr.unary.sizeOf_spec] at hn
    refine (h.evaluate depth operand (by omega)).bind fun value _ =>
      .ofExcept fun result hresult => ?_
    exact .of_callable? (Operation.callable?_unary hresult)
  | binary left operator right =>
    rw [Expr.binary.sizeOf_spec] at hn
    refine (h.evaluate depth left (by omega)).bind fun x _ =>
      (h.evaluate depth right (by omega)).bind fun y _ => .ofExcept fun result hresult => ?_
    exact .of_callable? (Operation.callable?_binary hresult)
  | logical left operator right =>
    rw [Expr.logical.sizeOf_spec] at hn
    refine (h.evaluate depth left (by omega)).bind fun x hx => ?_
    split
    · exact .pure hx
    · exact h.evaluate depth right (by omega)
  | var ref name => exact .lookUp ref name
  | assign ref name value =>
    rw [Expr.assign.sizeOf_spec] at hn
    exact (h.evaluate depth value (by omega)).bind fun x hx =>
      (Step.Halts.assign ref name hx).bind fun _ _ => .pure hx
  | call callee paren arguments =>
    rw [Expr.call.sizeOf_spec] at hn
    have harguments : ∀ e ∈ arguments,
        (Lox.evaluate n e).Halts size depth (Value.Loopless size) := by
      intro e he
      have hlt := List.sizeOf_lt_of_mem he
      exact h.evaluate depth e (by omega)
    have hpos : 0 < sizeOf callee := by cases callee <;> simp +arith
    refine (h.evaluate depth callee (by omega)).bind fun x hx =>
      (Step.Halts.values harguments).bind fun values hvalues => ?_
    have hcallee (f : Callable) (hf : x.callee values.length = .ok f) : f.Loopless size := by
      cases f with
      | native f => trivial
      | function f =>
        obtain rfl := (Survey.callee_eq_ok hf).2 f rfl
        exact hx
    exact (Step.Halts.ofExcept hcallee).bind fun f hf =>
      h.call depth f values paren hf hvalues (by omega)

/-- The body of a function runs with one more call in progress, and so with less in reserve. -/
theorem call_succ (h : Suffices size n) {f : Callable} (hf : f.Loopless size)
    {arguments : List Value} (harguments : ∀ value ∈ arguments, value.Loopless size)
    (paren : Token) (hn : reserve size depth < n + 1) :
    (Lox.call (n + 1) f arguments paren).Halts size depth (Value.Loopless size) := by
  cases f with
  | native f => exact .native f harguments paren
  | function f =>
    obtain ⟨hsize, hloops⟩ := hf
    refine (Step.Halts.asCall fun hroom => .inFrame (fun b hb => ?_)
      (.inOrder fun s hs => ?_)).bind fun flow hflow => .pure ?_
    · exact harguments b.2 (List.of_mem_zip hb).2
    · have hlt := List.sizeOf_lt_of_mem hs
      have hreserve : reserve size depth = reserve size (depth + 1) + size :=
        reserve_of_lt hroom
      exact h.execute (depth + 1) s (Stmt.loopsAny_eq_false_iff.mp hloops s hs) (by omega)
        (by omega)
    · cases flow with
      | normal => trivial
      | returned value => exact hflow

/-- The parts of a statement are smaller than the statement. -/
theorem execute_succ (h : Suffices size n) {s : Stmt RefId} (hs : s.loops = false)
    (hsize : sizeOf s ≤ size) (hn : sizeOf s + reserve size depth ≤ n + 1) :
    (Lox.execute (n + 1) s).Halts size depth (Step.Halts.Returned size) := by
  cases s with
  | expression e =>
    rw [Stmt.expression.sizeOf_spec] at hn
    exact (h.evaluate depth e (by omega)).bind fun _ _ => .pure trivial
  | print e =>
    rw [Stmt.print.sizeOf_spec] at hn
    exact (h.evaluate depth e (by omega)).bind fun x _ =>
      (Step.Halts.print x).bind fun _ _ => .pure trivial
  | var name initializer =>
    cases initializer with
    | none =>
      have hnil : Value.Loopless size .nil := trivial
      exact (Step.Halts.define name hnil).bind fun _ _ => .pure trivial
    | some e =>
      rw [Stmt.var.sizeOf_spec, Option.some.sizeOf_spec] at hn
      exact (h.evaluate depth e (by omega)).bind fun x hx =>
        (Step.Halts.define name hx).bind fun _ _ => .pure trivial
  | block body =>
    rw [Stmt.block.sizeOf_spec] at hn hsize
    refine Step.Halts.get.bind fun m _ => .inFrame (by simp) (.inOrder fun s hs' => ?_)
    have hlt := List.sizeOf_lt_of_mem hs'
    exact h.execute depth s (Stmt.loopsAny_eq_false_iff.mp hs s hs') (by omega) (by omega)
  | «if» condition thenBranch elseBranch =>
    rw [Stmt.if.sizeOf_spec] at hn hsize
    refine (h.evaluate depth condition (by omega)).bind fun x _ => ?_
    cases elseBranch with
    | none =>
      split
      · exact h.execute depth thenBranch hs (by omega) (by omega)
      · exact .pure trivial
    | some elseBranch =>
      rw [Option.some.sizeOf_spec] at hn hsize
      obtain ⟨hthen, helse⟩ := Bool.or_eq_false_iff.mp hs
      split
      · exact h.execute depth thenBranch hthen (by omega) (by omega)
      · exact h.execute depth elseBranch helse (by omega) (by omega)
  | «while» condition body => cases hs
  | function name parameters body =>
    rw [Stmt.function.sizeOf_spec] at hsize
    exact (Step.Halts.makeFunction name parameters (by omega) hs).bind fun f hf =>
      (Step.Halts.define name hf).bind fun _ _ => .pure trivial
  | «return» keyword value =>
    cases value with
    | none => exact .pure trivial
    | some e =>
      rw [Stmt.return.sizeOf_spec, Option.some.sizeOf_spec] at hn
      exact (h.evaluate depth e (by omega)).bind fun x hx => .pure hx

end Suffices

/-- Fuel for what is still to be nested is enough. -/
theorem suffices_all (size n : Nat) : Suffices size n := by
  induction n with
  | zero => exact .zero size
  | succ n ih =>
    exact ⟨fun _ e => ih.evaluate_succ e,
      fun _ _ _ paren hf harguments => ih.call_succ hf harguments paren,
      fun _ _ hs hsize => ih.execute_succ hs hsize⟩

/-- A program runs one statement after the other, and needs no more fuel than the largest. -/
theorem halts_runProgram {ss : List (Stmt RefId)} (hloops : Stmt.loopsAny ss = false)
    (hsize : sizeOf ss ≤ size) (hn : size + reserve size depth ≤ n) :
    (runProgram n ss).Halts size depth fun _ => True := by
  induction ss with
  | nil => exact .pure trivial
  | cons s ss ih =>
    obtain ⟨hs, hss⟩ := Bool.or_eq_false_iff.mp hloops
    rw [List.cons.sizeOf_spec] at hsize
    exact ((suffices_all size n).execute depth s hs (by omega) (by omega)).bind
      fun _ _ => ih hss (by omega)

/-- No function that is bound to a name has a loop. -/
def Machine.LoopFree (m : Machine) : Prop :=
  ∀ f name closure, m.store.read? f name = some (.function closure) →
    Stmt.loopsAny closure.body = false

/-- Of finitely many functions one has the largest body. -/
theorem Value.exists_size (values : List Value) :
    ∃ size, ∀ closure, .function closure ∈ values → sizeOf closure.body ≤ size := by
  induction values with
  | nil => exact ⟨0, by simp⟩
  | cons value values ih =>
    obtain ⟨size, hsize⟩ := ih
    cases value with
    | function f =>
      refine ⟨max (sizeOf f.body) size, fun closure hclosure => ?_⟩
      rcases List.mem_cons.mp hclosure with heq | hrest
      · cases heq
        exact Nat.le_max_left _ _
      · exact (hsize closure hrest).trans (Nat.le_max_right _ _)
    | _ => exact ⟨size, fun closure hclosure => hsize closure (by simpa using hclosure)⟩

/-- There are finitely many functions in a store, so one size serves for all. -/
theorem Machine.LoopFree.exists_loopless (h : m.LoopFree) : ∃ size, m.Loopless size := by
  obtain ⟨size, hsize⟩ := Value.exists_size
    (m.store.frames.toList.flatMap fun frame => frame.bindings.toList.map Prod.snd)
  refine ⟨size, fun f name value hread => ?_⟩
  cases value with
  | function closure =>
    obtain ⟨frame, hframe, hget⟩ := Option.bind_eq_some_iff.mp hread
    have hbound := Std.TreeMap.mem_toList_iff_getElem?_eq_some.mpr hget
    refine ⟨hsize closure (List.mem_flatMap.mpr ⟨frame, ?_, ?_⟩), h f name closure hread⟩
    · exact (Array.mem_of_getElem? hframe).val
    · exact List.mem_map_of_mem (f := Prod.snd) hbound
  | _ => trivial

/-- The end of a run that had the fuel for it is no want of fuel. -/
theorem Halted.ne_outOfFuel {good : α → Prop} {result : EStateM.Result Stop Machine α}
    (h : Halted size depth good result) (m' : Machine) : result ≠ .error .outOfFuel m' := by
  cases h <;> nofun

theorem Machine.Loopless.loopFree (h : m.Loopless size) : m.LoopFree :=
  fun f name _ hread => (h f name _ hread).2

/-- Every expression ends where no function that is stored has a loop. -/
theorem Machine.LoopFree.terminates_evaluate (h : m.LoopFree) (e : Expr RefId) :
    Step.Terminates (evaluate · e) m := by
  obtain ⟨size, hm⟩ := h.exists_loopless
  have hhalted := (suffices_all size _).evaluate m.callDepth e (Nat.le_refl _) m hm rfl
  exact Step.terminates_of_extends (fun n k hle => evaluate_extends hle e) hhalted.ne_outOfFuel

/-- On such a machine every statement without a loop comes to an end. -/
theorem Machine.LoopFree.terminates_execute (h : m.LoopFree) {s : Stmt RefId}
    (hs : s.loops = false) : Step.Terminates (execute · s) m := by
  obtain ⟨size, hm⟩ := h.exists_loopless
  have hm' := hm.mono (Nat.le_max_left size (sizeOf s))
  have hhalted := (suffices_all _ _).execute m.callDepth s hs (Nat.le_max_right _ _)
    (Nat.le_refl _) m hm' rfl
  exact Step.terminates_of_extends (fun n k hle => execute_extends hle s) hhalted.ne_outOfFuel

/-- A program without loops leaves no functions with loops behind. -/
theorem Machine.LoopFree.halts_runProgram (h : m.LoopFree) {ss : List (Stmt RefId)}
    (hss : Stmt.loopsAny ss = false) :
    ∃ size result, Halted size m.callDepth (fun _ => True) result ∧
      ∃ bound, ∀ fuel ≥ bound, runProgram fuel ss m = result := by
  obtain ⟨size, hm⟩ := h.exists_loopless
  have hm' := hm.mono (Nat.le_max_left size (sizeOf ss))
  have hhalted := Lox.halts_runProgram hss (Nat.le_max_right _ _) (Nat.le_refl _) m hm' rfl
  exact ⟨_, _, hhalted, _, Step.eq_of_extends (fun n k hle => runProgram_extends hle ss)
    hhalted.ne_outOfFuel⟩

end Lox
