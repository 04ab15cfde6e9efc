import Lox.Proofs.Execution.Writing

/-!
Frames that calls leave alone. A frame stays as it is while it is on the chain of no current frame
and of no function that is called; and what has no references stays in the frames that it makes.
-/

namespace Lox

/-- A further chain that leads to the frame, or another binding in it. -/
def Effect.touch (g : FrameId) : Effect where
  occurs m m' _ := (∃ f, ¬ m.store.OnChain f g ∧ m'.store.OnChain f g) ∨
    ∃ name, m'.store.read? g name ≠ m.store.read? g name
  irrefl := by
    rintro m (⟨f, hbefore, hbehind⟩ | ⟨name, hchanged⟩)
    · exact hbefore hbehind
    · exact hchanged rfl
  split := by
    rintro m m' m'' stop (⟨f, hbefore, hbehind⟩ | ⟨name, hchanged⟩)
    · by_cases hbetween : m'.store.OnChain f g
      · exact .inl (.inl ⟨f, hbefore, hbetween⟩)
      · exact .inr (.inl ⟨f, hbetween, hbehind⟩)
    · by_cases hfirst : m'.store.read? g name = m.store.read? g name
      · exact .inr (.inr ⟨name, hfirst ▸ hchanged⟩)
      · exact .inl (.inr ⟨name, hfirst⟩)
  leave := id

/-- No chain that names are looked up on leads to the frame. -/
structure Machine.Clear (m : Machine) (g : FrameId) : Prop where
  lt_next : g < m.store.next
  environment : ¬ m.store.OnChain m.environment g
  globals : ¬ m.store.OnChain m.globals g

namespace Point

/-- While the task at this point is carried out, the body of the function is entered on this
    machine. -/
def Invokes (p : Point) (k : Closure) (m : Machine) : Prop :=
  ∃ calls n arguments paren, p.Reaches calls ⟨n + 1, .call (.function k) arguments paren, m⟩ ∧
    m.callDepth < maxCallDepth

end Point

section Touch

variable {g f enclosing : FrameId} {m m' : Machine} {stop : Option Stop} {p q : Point}
  {bindings : List (String × Value)}

/-- If the frame was not touched, it is on no chain on which it was not before. -/
theorem Effect.onChain_of_not_touch (h : ¬ (touch g).occurs m m' stop) (hf : m'.store.OnChain f g) :
    m.store.OnChain f g := by
  by_contra hbefore
  exact h (.inl ⟨f, hbefore, hf⟩)

/-- Only the store matters. -/
theorem Effect.not_touch_of_store_eq (hstore : m'.store = m.store) :
    ¬ (touch g).occurs m m' stop := by
  rintro (⟨f, hbefore, hbehind⟩ | ⟨name, hchanged⟩)
  · exact hbefore (hstore ▸ hbehind)
  · exact hchanged (by rw [hstore])

/-- A new frame touches only the frames that enclose it. -/
theorem Effect.not_touch_entered (hg : g < m.store.next) (h : ¬ m.store.OnChain enclosing g)
    (hstore : m'.store = (m.entered enclosing bindings).store) :
    ¬ (touch g).occurs m m' stop := by
  rintro (⟨f, hbefore, hbehind⟩ | ⟨name, hchanged⟩)
  · rw [hstore] at hbehind
    refine hbefore (hbehind.of_push fun parent hparent => ?_)
    rw [Frame.enclosing_foldl_define] at hparent
    obtain rfl := Option.some.inj hparent
    exact h
  · rw [hstore] at hchanged
    exact hchanged (Store.read?_push.trans (if_neg (Nat.ne_of_lt hg)))

/-- A binding in another frame touches nothing. -/
theorem Effect.not_touch_of_ne (hparents : ∀ f, m'.store.parent? f = m.store.parent? f)
    (hreads : ∀ name, m'.store.read? g name = m.store.read? g name) :
    ¬ (touch g).occurs m m' stop := by
  rintro (⟨f, hbefore, hbehind⟩ | ⟨name, hchanged⟩)
  · exact hbefore ((Store.onChain_congr hparents).mp hbehind)
  · exact hchanged (hreads name)

/-- A frame stays out of reach until it is touched. -/
theorem Machine.Clear.of_evolves {declaring : Bool} (h : m.Clear g)
    (hevolves : m.Evolves declaring m') (hquiet : ¬ (Effect.touch g).occurs m m' stop) :
    m'.Clear g where
  lt_next := Nat.lt_of_lt_of_le h.lt_next hevolves.next_le
  environment := by
    rw [hevolves.environment]
    exact fun hchain => h.environment (Effect.onChain_of_not_touch hquiet hchain)
  globals := by
    rw [hevolves.globals]
    exact fun hchain => h.globals (Effect.onChain_of_not_touch hquiet hchain)

/-- A frame that has just been made has only itself and its enclosing frames on its chain. -/
theorem Machine.Clear.of_new (hg : g < m.store.next) (hglobals : ¬ m.store.OnChain m.globals g)
    (hprecedes : m.Precedes m') (henvironment : m'.environment = m.store.next)
    (hquiet : ¬ (Effect.touch g).occurs m m' stop) : m'.Clear g where
  lt_next := Nat.lt_of_lt_of_le hg hprecedes.next_le
  environment hchain := by
    rw [henvironment] at hchain
    have hnone : m.store.parent? m.store.next = none := by
      cases hparent : m.store.parent? m.store.next with
      | none => rfl
      | some parent => exact absurd (Store.lt_next_of_parent? hparent) (Nat.lt_irrefl _)
    have hsame := (Effect.onChain_of_not_touch hquiet hchain).eq_of_root hnone
    exact absurd hg (hsame ▸ Nat.lt_irrefl _)
  globals hchain := by
    rw [hprecedes.globals] at hchain
    exact hglobals (Effect.onChain_of_not_touch hquiet hchain)

/-- A frame that is clear for a task is clear for the tasks that it hands out. -/
theorem Machine.Clear.of_enters (h : p.machine.Clear g) (henters : p.Enters q)
    (hquiet : ¬ (Effect.touch g).occurs p.machine q.machine none) : q.machine.Clear g := by
  have hnew (henvironment : q.machine.environment = p.machine.store.next) : q.machine.Clear g :=
    of_new h.lt_next h.globals henters.precedes henvironment hquiet
  obtain ⟨-, hevolves⟩ | ⟨body, -, hm⟩ | ⟨k, arguments, paren, -, -, hm⟩ := henters.machine_cases
  · exact h.of_evolves hevolves hquiet
  · exact hnew (by rw [hm]; rfl)
  · exact hnew (by rw [hm]; rfl)

/-- A frame is not touched by a task from which it is out of reach, as long as no function is called
    that has it on its chain. -/
theorem Machine.Clear.not_touch (h : p.machine.Clear g)
    (hcalls : ∀ k m, p.Invokes k m → ¬ m.store.OnChain k.frame g) :
    ¬ (Effect.touch g).At p := by
  intro htouch
  obtain ⟨calls, q, m, α, step, hreaches, hclear, hacts, -, hquiet, hstep⟩ :=
    Effect.exists_act (fun q => q.machine.Clear g)
      (fun _ _ hclear henters hquiet => hclear.of_enters henters hquiet) h htouch
  have hm := hclear.of_evolves hacts.evolves hquiet
  obtain hstore | ⟨name, value, hstore⟩ | ⟨ref, token, e, f, value, -, hf, hstore⟩ |
    ⟨enclosing, bindings, hstore, henclosing⟩ := hacts.store_cases
  · exact Effect.not_touch_of_store_eq hstore hstep
  · have hne : m.environment ≠ g := by
      rintro rfl
      exact hm.environment .refl
    refine Effect.not_touch_of_ne (fun f => ?_) (fun other => ?_) hstep
    · rw [hstore, Store.parent?_define]
    · simp [hstore, Store.read?_define_eq, hne]
  · have hne : f ≠ g := by
      rintro rfl
      exact hf.elim hm.environment hm.globals
    refine Effect.not_touch_of_ne (fun f => ?_) (fun other => ?_) hstep
    · rw [hstore, Store.parent?_write]
    · rw [hstore, Store.read?_write_of_ne hne]
  · refine Effect.not_touch_entered hm.lt_next ?_ hstore hstep
    obtain ⟨-, -, -, rfl⟩ | ⟨n, k, arguments, paren, rfl, hdepth, rfl⟩ := henclosing
    · exact hm.environment
    · exact hcalls k m ⟨calls, n, arguments, paren, hreaches, hdepth⟩

end Touch

section Inert

/-! Without a reference there is nothing to call and nothing to assign to. -/

/-- The references in the text of a task. The body of a function that is called is not part of the
    call. -/
def Task.references : Task → List (RefId × Token)
  | .evaluate e => e.references
  | .values es => Expr.referencesAll es
  | .call _ _ _ => []
  | .execute s => s.references
  | .loop condition body => condition.references ++ body.references
  | .inOrder body => Stmt.referencesAll body
  | .run program => Stmt.referencesAll program

variable {n : Nat} {m m' : Machine} {e : Expr RefId} {value : Value} {p q : Point} {g : FrameId}
  {name : String}

/-- The text of a task that is handed out is part of the text of the task. -/
theorem Point.Enters.references_subset (h : p.Enters q) (hclosure : p.task.closure? = none) :
    q.task.references ⊆ p.task.references := by
  cases h with
  | called => cases hclosure
  | applied => exact List.nil_subset _
  | grouping | operand | expression | print | initializer | block | loop | returned =>
    exact List.Subset.refl _
  | binaryLeft | logicalLeft | assigned | callee | firstValue | turnCondition | firstInOrder
  | firstRun => exact List.subset_append_left _ _
  | binaryRight | logicalRight | arguments | otherValues | turnBody | otherInOrder | otherRun =>
    exact List.subset_append_right _ _
  | nextTurn => exact List.Subset.refl _
  | @condition _ _ _ other =>
    cases other <;> exact List.subset_append_left _ _
  | @thenBranch _ _ _ _ _ _ other =>
    cases other with
    | none => exact List.subset_append_right _ _
    | some s' =>
      exact List.Subset.trans (List.subset_append_left _ _) (List.subset_append_right _ _)
  | elseBranch =>
    exact List.Subset.trans (List.subset_append_right _ _) (List.subset_append_right _ _)

/-- An expression without references makes no function. -/
theorem callable?_of_evaluate (href : e.references = []) (hok : evaluate n e m = .ok value m') :
    value.callable? = none := by
  induction n generalizing e m value m' with
  | zero => cases hok
  | succ n ih =>
    cases e with
    | literal literal =>
      cases hok
      cases literal <;> rfl
    | grouping inner => exact ih (e := inner) href hok
    | unary operator operand =>
      obtain ⟨x, m₁, -, hrest⟩ := Step.exists_of_bind_ok hok
      exact Operation.callable?_unary (Step.eq_ok_of_ofExcept hrest)
    | binary left operator right =>
      obtain ⟨x, m₁, -, hrest⟩ := Step.exists_of_bind_ok hok
      obtain ⟨y, m₂, -, hrest⟩ := Step.exists_of_bind_ok hrest
      exact Operation.callable?_binary (Step.eq_ok_of_ofExcept hrest)
    | logical left operator right =>
      obtain ⟨hleft, hright⟩ := List.append_eq_nil_iff.mp href
      obtain ⟨x, m₁, hx, hrest⟩ := Step.exists_of_bind_ok hok
      cases hmore : Operation.shortCircuits operator.kind x with
      | true =>
        simp only [hmore, if_true] at hrest
        cases hrest
        exact ih hleft hx
      | false =>
        simp only [hmore, Bool.false_eq_true, if_false] at hrest
        exact ih hright hrest
    | var ref name => cases href
    | assign ref name e =>
      obtain ⟨-, hnone⟩ := List.append_eq_nil_iff.mp href
      cases hnone
    | call callee paren arguments =>
      obtain ⟨hcallee, -⟩ := List.append_eq_nil_iff.mp href
      obtain ⟨x, m₁, hx, hrest⟩ := Step.exists_of_bind_ok hok
      obtain ⟨values, m₂, -, hrest⟩ := Step.exists_of_bind_ok hrest
      obtain ⟨k, m₃, hk, -⟩ := Step.exists_of_bind_ok hrest
      have hok := Step.eq_ok_of_ofExcept hk
      rw [Value.callee, ih hcallee hx] at hok
      cases hok

/-- Without references no function of the program can be called. -/
theorem Point.Enters.closure?_eq_none (h : p.Enters q) (hclosure : p.task.closure? = none)
    (href : p.task.references = []) : q.task.closure? = none := by
  cases h with
  | applied hcallee _ hcallable =>
    obtain ⟨hnone, -⟩ := List.append_eq_nil_iff.mp href
    rw [Value.callee, callable?_of_evaluate hnone hcallee] at hcallable
    cases hcallable
  | _ => rfl

/-- Without references a task writes to its own frame and to new ones. -/
theorem not_change_of_references (href : p.task.references = [])
    (hclosure : p.task.closure? = none) (hg : g < p.machine.store.next)
    (hne : p.machine.environment ≠ g) : ¬ (Effect.change g name).At p := by
  intro hchange
  let holds (q : Point) : Prop := q.task.references = [] ∧ q.task.closure? = none ∧
    g < q.machine.store.next ∧ q.machine.environment ≠ g
  have hkeeps (q r : Point) (hq : holds q) (henters : q.Enters r) : holds r := by
    obtain ⟨href, hclosure, hg, hne⟩ := hq
    have hsubset := henters.references_subset hclosure
    rw [href] at hsubset
    refine ⟨List.subset_nil.mp hsubset, henters.closure?_eq_none hclosure href,
      Nat.lt_of_lt_of_le hg henters.precedes.next_le, ?_⟩
    obtain ⟨-, hevolves⟩ | ⟨body, -, hm⟩ | ⟨k, arguments, paren, htask, -⟩ := henters.machine_cases
    · exact hevolves.environment ▸ hne
    · rw [hm]
      exact Nat.ne_of_gt hg
    · rw [htask] at hclosure
      cases hclosure
  obtain ⟨calls, q, m, α, step, -, ⟨href, hclosure, hg, hne⟩, hacts, -, -, hstep⟩ :=
    Effect.exists_act holds (fun q r hq henters _ => hkeeps q r hq henters)
      ⟨href, hclosure, hg, hne⟩ hchange
  have hevolves := hacts.evolves
  rw [← hevolves.environment] at hne
  refine hstep ?_
  obtain hstore | ⟨other, value, hstore⟩ | ⟨ref, token, e, f, value, htask, -⟩ |
    ⟨enclosing, bindings, hstore, -⟩ := hacts.store_cases
  · rw [hstore]
  · simp [hstore, Store.read?_define_eq, hne]
  · rw [htask] at href
    obtain ⟨-, hnone⟩ := List.append_eq_nil_iff.mp href
    cases hnone
  · have hlt := Nat.lt_of_lt_of_le hg hevolves.next_le
    rw [hstore]
    exact Store.read?_push.trans (if_neg (Nat.ne_of_lt hlt))

end Inert

/-- One call of a function, as an expression would make it. -/
structure Call where
  fuel : Nat
  arguments : List Value
  paren : Token

def Call.point (c : Call) (f : Closure) (m : Machine) : Point :=
  ⟨c.fuel, .call (.function f) c.arguments c.paren, m⟩

namespace Closure

/-- The machine behind calls of the function, one after the other, whatever their outcomes. -/
def afterCalls (f : Closure) (m : Machine) (calls : List Call) : Machine :=
  calls.foldl (fun m c => (c.point f m).after) m

/-- In none of these calls a function is called in its turn that has the frame on its chain. -/
def CallsAvoid (f : Closure) (g : FrameId) : Machine → List Call → Prop
  | _, [] => True
  | m, c :: calls =>
    (∀ body k m', (c.point f m).Enters body → body.Invokes k m' → ¬ m'.store.OnChain k.frame g) ∧
      f.CallsAvoid g (c.point f m).after calls

end Closure

section Calls

variable {T : Effect} {f : Closure} {c : Call} {calls : List Call} {m : Machine} {g : FrameId}

/-- An effect of a call is one of its body, or of the new frame. -/
theorem Effect.exists_body (hstops : ∀ m stop, ¬ T.occurs m m stop)
    (hentered : ¬ T.occurs m (m.called.entered f.frame (f.bindings c.arguments)) none)
    (h : T.At (c.point f m)) : ∃ body, (c.point f m).Enters body ∧ T.At body := by
  obtain ⟨m', α, step, hacts, -, hstep⟩ | ⟨body, henters, -, hbody⟩ := Effect.traced h
  · obtain ⟨n, arguments, paren⟩ := c
    cases hacts with
    | exhausted => exact absurd hstep (hstops m _)
    | full => exact absurd hstep (hstops m _)
    | called => exact absurd hstep hentered
  · exact ⟨body, henters, hbody⟩

/-- A call comes back to the frame that it was made from. -/
theorem Call.evolves (c : Call) (f : Closure) (m : Machine) :
    m.Evolves false (c.point f m).after :=
  (Lox.evolves c.fuel).2.1 _ _ _ m

/-- A call touches no frame that the function and those that it calls do not have on their
    chains. -/
theorem Call.not_touch (hg : g < m.store.next) (hglobals : ¬ m.store.OnChain m.globals g)
    (hframe : ¬ m.store.OnChain f.frame g)
    (hcalls : ∀ body k m', (c.point f m).Enters body → body.Invokes k m' →
      ¬ m'.store.OnChain k.frame g) : ¬ (Effect.touch g).At (c.point f m) := by
  intro htouch
  have hquiet : ¬ (Effect.touch g).occurs m
      (m.called.entered f.frame (f.bindings c.arguments)) none :=
    Effect.not_touch_entered hg hframe rfl
  obtain ⟨body, henters, hbody⟩ :=
    Effect.exists_body (fun m stop => Effect.not_touch_of_store_eq rfl) hquiet htouch
  refine Machine.Clear.not_touch ?_ (fun k m' => hcalls body k m' henters) hbody
  have hprecedes := henters.precedes
  obtain ⟨n, arguments, paren⟩ := c
  cases henters with
  | called => exact .of_new hg hglobals hprecedes rfl hquiet

/-- Calls of a function leave a frame alone that is not on its chain, as long as no function on the
    way has it either. -/
theorem Closure.read?_afterCalls_of_not_onChain (hg : g < m.store.next)
    (hglobals : ¬ m.store.OnChain m.globals g) (hframe : ¬ m.store.OnChain f.frame g)
    (hcalls : f.CallsAvoid g m calls) (name : String) :
    (f.afterCalls m calls).store.read? g name = m.store.read? g name := by
  induction calls generalizing m with
  | nil => rfl
  | cons c calls ih =>
    obtain ⟨hfirst, hrest⟩ := hcalls
    have hquiet := Call.not_touch hg hglobals hframe hfirst
    have hevolves := c.evolves f m
    have hsame : (c.point f m).after.store.read? g name = m.store.read? g name := by
      by_contra hchanged
      exact hquiet (.inr ⟨name, hchanged⟩)
    have hstays {h : FrameId} (hh : ¬ m.store.OnChain h g) :
        ¬ (c.point f m).after.store.OnChain h g :=
      fun hchain => hh (Effect.onChain_of_not_touch hquiet hchain)
    refine (ih (Nat.lt_of_lt_of_le hg hevolves.next_le) ?_ (hstays hframe) hrest).trans hsame
    rw [hevolves.globals]
    exact hstays hglobals

/-- A function without references makes and changes no binding outside its own frames. -/
theorem Closure.read?_afterCalls_of_references (href : Stmt.referencesAll f.body = [])
    (hg : g < m.store.next) (name : String) :
    (f.afterCalls m calls).store.read? g name = m.store.read? g name := by
  induction calls generalizing m with
  | nil => rfl
  | cons c calls ih =>
    have hsame : ¬ (Effect.change g name).At (c.point f m) := by
      intro hchange
      have hentered : (m.entered f.frame (f.bindings c.arguments)).store.read? g name =
          m.store.read? g name := Store.read?_push.trans (if_neg (Nat.ne_of_lt hg))
      obtain ⟨body, henters, hbody⟩ := Effect.exists_body (T := .change g name)
        (fun _ _ hne => hne rfl) (not_not_intro hentered) hchange
      have hnext := Nat.lt_of_lt_of_le hg henters.precedes.next_le
      obtain ⟨n, arguments, paren⟩ := c
      cases henters with
      | called hdepth =>
        exact not_change_of_references (p := ⟨_, .inOrder f.body, _⟩) href rfl hnext
          (Nat.ne_of_gt hg) hbody
    have hnext := Nat.lt_of_lt_of_le hg (c.evolves f m).next_le
    exact (ih hnext).trans (not_not.mp hsame)

end Calls

end Lox
