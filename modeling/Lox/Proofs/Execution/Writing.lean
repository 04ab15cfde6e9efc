import Lox.Proofs.Execution.Effect
import Lox.Proofs.Execution.Resolution

namespace Lox

/-- A write to one frame changes no binding of another. -/
theorem Store.read?_write_of_ne {s : Store} {f g : FrameId} {name other : String} {value : Value}
    (h : f ≠ g) : (s.write f name value).2.read? g other = s.read? g other := by
  rw [read?, frame?_write_of_ne h, read?]

namespace Step

variable {α : Type}

theorem after_ofExcept (token : Token) (result : Except RuntimeProblem α) (m : Machine) :
    (ofExcept token result).after m = m := by
  cases result <;> rfl

theorem after_lookUp (ref : RefId) (name : Token) (m : Machine) :
    (lookUp ref name).after m = m := by
  have hreading (found : Option Value) : (reading name found).after m = m := by
    cases found <;> rfl
  cases hentry : m.distances[ref]? with
  | none => rw [after, lookUp_of_none hentry, ← after, hreading]
  | some distance => rw [after, lookUp_of_some hentry, ← after, hreading]

/-- A native function does not touch the store. -/
theorem store_after_native (f : Native) (arguments : List Value) (paren : Token) (m : Machine) :
    ((f.call arguments paren).after m).store = m.store := by
  unfold Native.call
  cases f.action <;> rfl

end Step

namespace Point

variable {p q : Point} {calls : List Closure} {m : Machine} {α : Type} {step : Step α}
  {f : FrameId} {name : String}

/-- What a task does itself comes behind the expressions that it has evaluated. -/
theorem Acts.evolves (h : p.Acts m step) : p.machine.Evolves false m := by
  have hevaluate {n e m value m'} (hok : evaluate n e m = .ok value m') : m.Evolves false m' :=
    ((Lox.evolves n).1 e).of_ok hok
  cases h with
  | unary hok | assign hok | print hok | define hok => exact hevaluate hok
  | binary hleft hright => exact (hevaluate hleft).trans (hevaluate hright)
  | callee hcallee harguments =>
    exact (hevaluate hcallee).trans ((Step.Evolves.values (Lox.evolves _).1 _).of_ok harguments)
  | _ => exact .refl _

/-- All that a step can do to the frames: nothing, a definition in the current one, an assignment on
    a chain, or a new frame in front of the current one or of a function's. -/
theorem Acts.store_cases (h : p.Acts m step) :
    (step.after m).store = m.store ∨
      (∃ name value, (step.after m).store = m.store.define m.environment name value) ∨
      (∃ ref token e f value, p.task = .evaluate (.assign ref token e) ∧
        (m.store.OnChain m.environment f ∨ m.store.OnChain m.globals f) ∧
        (step.after m).store = (m.store.write f token.lexeme value).2) ∨
      ∃ enclosing bindings, (step.after m).store = (m.entered enclosing bindings).store ∧
        ((∃ n body, p = ⟨n + 1, .execute (.block body), m⟩ ∧ enclosing = m.environment) ∨
          ∃ n k arguments paren, p = ⟨n + 1, .call (.function k) arguments paren, m⟩ ∧
            m.callDepth < maxCallDepth ∧ enclosing = k.frame) := by
  cases h with
  | exhausted | full => exact .inl rfl
  | unary | binary | callee => exact .inl (by rw [Step.after_ofExcept])
  | lookUp => exact .inl (by rw [Step.after_lookUp])
  | native => exact .inl (Step.store_after_native _ _ _ m)
  | print => exact .inl rfl
  | @assign n e _ value _ ref token =>
    obtain ⟨f, hf, hafter⟩ | hafter := Step.after_assign ref token value m
    · exact .inr (.inr (.inl ⟨ref, token, e, f, value, rfl, hf, by rw [hafter]⟩))
    · exact .inl (by rw [hafter])
  | declare | define | function => exact .inr (.inl ⟨_, _, rfl⟩)
  | called hdepth =>
    exact .inr (.inr (.inr ⟨_, _, rfl, .inr ⟨_, _, _, _, rfl, hdepth, rfl⟩⟩))
  | block => exact .inr (.inr (.inr ⟨_, _, rfl, .inl ⟨_, _, rfl, rfl⟩⟩))

/-- A task finds the frames that were there before, and where they were. -/
theorem Enters.precedes (h : p.Enters q) : p.machine.Precedes q.machine := by
  have hentered (m : Machine) (enclosing : FrameId) (bindings : List (String × Value)) :
      m.Precedes (m.entered enclosing bindings) :=
    have hevolves := Survey.entered_evolves m enclosing bindings
    ⟨hevolves.globals, hevolves.next_le, hevolves.parent?⟩
  obtain ⟨-, hevolves⟩ | ⟨body, -, hm⟩ | ⟨k, arguments, paren, -, -, hm⟩ := h.machine_cases
  · exact hevolves.precedes
  · exact hm ▸ hentered p.machine _ _
  · have hcalled := hentered p.machine.called k.frame (k.bindings arguments)
    exact hm ▸ ⟨hcalled.globals, hcalled.next_le, hcalled.parent?⟩

/-- What was there at a point is there at all points that it leads to. -/
theorem Reaches.precedes (h : p.Reaches calls q) : p.machine.Precedes q.machine := by
  induction h with
  | refl => exact .refl _
  | enters _ henters ih => exact ih.trans henters.precedes

end Point

/-- The step makes or changes the binding of the name in the frame. -/
def Step.Changes {α : Type} (step : Step α) (m : Machine) (f : FrameId) (name : String) : Prop :=
  (step.after m).store.read? f name ≠ m.store.read? f name

/-- Another value, or a first one, for the name in the frame. -/
def Effect.change (f : FrameId) (name : String) : Effect where
  occurs m m' _ := m'.store.read? f name ≠ m.store.read? f name
  irrefl _ h := h rfl
  split {m m' m'' stop} h := by
    by_cases hfirst : m'.store.read? f name = m.store.read? f name
    · exact .inr (hfirst ▸ h)
    · exact .inl hfirst
  leave := id

section Changes

variable {S : Survey} {nest : Nest} {p : Point} {m : Machine} {α : Type} {step : Step α}
  {f : FrameId} {name : String}

/-- The globals are the end of every chain that mirrors scopes, and lie behind all of them. -/
theorem Survey.Realizes.frameAbove?_length {s : Store} {globals : FrameId}
    (h : S.Realizes s globals f nest) : s.frameAbove? f nest.length = some globals := by
  induction nest generalizing f with
  | nil => exact congrArg some h
  | cons r outer ih =>
    obtain ⟨-, -, parent, hparent, houter⟩ := h
    exact Store.frameAbove?_succ.mpr ⟨parent, hparent, ih houter⟩

/-- Where frames and scopes agree, a step makes and changes bindings on the chain of the current
    frame only. -/
theorem Survey.Ready.onChain_of_changes (h : S.Ready nest p) (hacts : p.Acts m step)
    (hf : f < m.store.next) (hchanges : step.Changes m f name) :
    m.store.OnChain m.environment f := by
  unfold Step.Changes at hchanges
  obtain hstore | ⟨other, value, hstore⟩ | ⟨ref, token, e, g, value, htask, hg, hstore⟩ |
    ⟨enclosing, bindings, hstore, -⟩ := hacts.store_cases
  · rw [hstore] at hchanges
    exact absurd rfl hchanges
  · rw [hstore, Store.read?_define_eq] at hchanges
    split at hchanges
    · rename_i hsame
      exact hsame.1 ▸ .refl
    · exact absurd rfl hchanges
  · rw [hstore] at hchanges
    obtain rfl : g = f := by
      by_contra hne
      exact hchanges (Store.read?_write_of_ne hne)
    refine hg.elim id fun hglobals => .trans ?_ hglobals
    obtain ⟨-, -, hplaced⟩ := h
    rw [htask] at hplaced
    have hrealizes := hplaced.stands.realizes.evolve hacts.evolves
    rw [← hacts.evolves.environment] at hrealizes
    exact ⟨_, hrealizes.frameAbove?_length⟩
  · rw [hstore] at hchanges
    exact absurd (Store.read?_push.trans (if_neg (Nat.ne_of_lt hf))) hchanges

/-- Whatever a task has made of a binding in a frame that was there before was brought about by one
    step, which found the binding as it was. -/
theorem Point.exists_act_of_read?_ne (hf : f < p.machine.store.next)
    (h : p.after.store.read? f name ≠ p.machine.store.read? f name) :
    ∃ calls q m α, ∃ step : Step α, p.Reaches calls q ∧ q.Acts m step ∧ f < m.store.next ∧
      m.store.read? f name = p.machine.store.read? f name ∧ step.Changes m f name := by
  have hat : (Effect.change f name).At p := h
  obtain ⟨calls, q, m, α, step, hreaches, -, hacts, hquiet, -, hstep⟩ :=
    Effect.exists_act (fun _ => True) (fun _ _ _ _ _ => trivial) trivial hat
  have hle := (hreaches.precedes.trans hacts.evolves.precedes).next_le
  exact ⟨calls, q, m, α, step, hreaches, hacts, Nat.lt_of_lt_of_le hf hle, not_not.mp hquiet, hstep⟩

end Changes

end Lox
