import Lox.Proofs.Execution.Layered

namespace Lox

/-- The same value, where `next` frames are common. A function has the same text, and its frame is
    the same if it is a common one. -/
inductive Value.Alike (next : FrameId) : Value → Value → Prop
  | plain {value : Value} (h : ∀ f, value ≠ .function f) : Alike next value value
  | function {f f' : Closure} (hidentity : f'.identity = f.identity) (hname : f'.name = f.name)
      (hparameters : f'.parameters = f.parameters)
      (hbody : Stmt.AlikeAll Eq (fun _ _ => True) f.body f'.body)
      (hframe : ∀ g < next, f.frame = g ↔ f'.frame = g) : Alike next (.function f) (.function f')

/-- The same output, and the same bindings in the common frames. -/
structure Machine.Agree (next : FrameId) (m m' : Machine) : Prop where
  output : m'.output = m.output
  clock : m'.clock = m.clock
  functions : m'.functions = m.functions
  read? : ∀ f < next, ∀ name,
    Option.Rel (Value.Alike next) (m.store.read? f name) (m'.store.read? f name)

/-- The same flow or the same error, in states that agree. -/
inductive SameEnding (next : FrameId) :
    EStateM.Result Stop Machine Flow → EStateM.Result Stop Machine Flow → Prop
  | normal {m m' : Machine} (h : m.Agree next m') :
      SameEnding next (.ok .normal m) (.ok .normal m')
  | returned {value value' : Value} {m m' : Machine} (hvalue : value.Alike next value')
      (h : m.Agree next m') :
      SameEnding next (.ok (.returned value) m) (.ok (.returned value') m')
  | error {e : RuntimeError} {m m' : Machine} (h : m.Agree next m') :
      SameEnding next (.error (.error e) m) (.error (.error e) m')

/-- With enough fuel, one run ends just if the other does, and they end the same. -/
structure SameEndings (next : FrameId) (run run' : Nat → EStateM.Result Stop Machine Flow) :
    Prop where
  onward : ∀ n, (∀ m, run n ≠ .error .outOfFuel m) → ∃ n', SameEnding next (run n) (run' n')
  back : ∀ n', (∀ m, run' n' ≠ .error .outOfFuel m) → ∃ n, SameEnding next (run n) (run' n')

/-- If one run has a flow, the other has one as well, in a state that agrees. -/
theorem SameEndings.exists_ok {next : FrameId} {run run' : Nat → EStateM.Result Stop Machine Flow}
    (h : SameEndings next run run') {n' : Nat} {flow' : Flow} {m' : Machine}
    (hrun' : run' n' = .ok flow' m') : ∃ n flow m, run n = .ok flow m ∧ m.Agree next m' := by
  have hends : ∀ m, run' n' ≠ .error .outOfFuel m := by
    intro m hgone
    cases hrun'.symm.trans hgone
  obtain ⟨n, hsame⟩ := h.back n' hends
  rw [hrun'] at hsame
  generalize hrun : run n = result at hsame
  cases hsame with
  | normal h => exact ⟨n, _, _, hrun, h⟩
  | returned _ h => exact ⟨n, _, _, hrun, h⟩

/-- A step that nothing stops has a value. -/
theorem Step.exists_ok {α : Type} {step : Step α} {m : Machine} (h : step.stop? m = none) :
    ∃ a, step m = .ok a (step.after m) := by
  unfold stop? at h
  unfold after
  cases hstep : step m with
  | ok a m' => exact ⟨a, rfl⟩
  | error stop m' => simp [hstep] at h

namespace Layered

variable {P : Layered} {w : Pairing Level} {c : Layout} {next : FrameId} {m m' : Machine}
  {side : Side} {result result' : EStateM.Result Stop Machine Flow}

/-- Corresponding values look the same from the common frames: a function was made in a common frame
    on one side just if it was on the other, and then it is that frame. -/
theorem alike_of_values {g g' : FrameId} {s s' : Store} (hwraps : ¬ P.wraps)
    (hstores : P.comparison.Stores w g g' s s') (hsame : Pairing.same next ≤ w) {v v' : Value}
    (h : P.comparison.Values w v v') : v.Alike next v' := by
  cases h with
  | plain h => exact .plain h
  | function h =>
    obtain ⟨c, l, hw, hc, -, hname, hparameters, hbody⟩ := h.exists_functions
    refine .function h.identity hname hparameters (hbody.alike hwraps) fun g hg => ?_
    have hg' : w [] g g := hsame _ _ _ ⟨rfl, rfl, hg⟩
    exact hstores.eq_iff (shared_of_aligned hc) Comparison.shared_nil hw hg'

/-- The common frames bind the same names to values that look the same. -/
theorem agree_of_machines (hwraps : ¬ P.wraps) (hm : P.comparison.Machines w c m m')
    (hsame : Pairing.same next ≤ w) : m.Agree next m' where
  output := hm.output.trans (String.empty_append ..)
  clock := hm.clock
  functions := hm.functions
  read? f hf name := by
    have hread := hm.store.read? (n := name) Comparison.shared_nil (hsame _ _ _ ⟨rfl, rfl, hf⟩) rfl
    generalize m.store.read? f name = found at hread ⊢
    generalize m'.store.read? f name = found' at hread ⊢
    cases hread with
    | none => exact .none
    | some hvalue => exact .some (alike_of_values hwraps hm.store hsame hvalue)

/-- Corresponding runs end the same, unless one of them gives up. -/
theorem sameEnding_of_results (hwraps : ¬ P.wraps) (hsame : Pairing.same next ≤ w)
    (h : P.comparison.Results w c P.comparison.Flows (some side) result result') :
    SameEnding next result result' ∨ (side = .first ∧ ∃ m, result = .error .outOfFuel m) ∨
      side = .second ∧ ∃ m, result' = .error .outOfFuel m := by
  cases h with
  | ok hle hflow hm =>
    have hagree := agree_of_machines hwraps hm (hsame.trans hle)
    cases hflow with
    | normal => exact .inl (.normal hagree)
    | returned hvalue =>
      have halike := alike_of_values hwraps hm.store (hsame.trans hle) hvalue
      exact .inl (.returned halike hagree)
  | error hle herror hm =>
    obtain rfl := eq_of_errors herror
    exact .inl (.error (agree_of_machines hwraps hm (hsame.trans hle)))
  | first => exact .inr (.inl ⟨rfl, _, rfl⟩)
  | second => exact .inr (.inr ⟨rfl, _, rfl⟩)

/-- Steps that correspond for any two bounds end the same, if the bounds are high enough. -/
theorem sameEndings {step step' : Nat → Step Flow} (hwraps : ¬ P.wraps)
    (hsame : Pairing.same next ≤ w) (hm : P.comparison.Machines w c m m')
    (h : ∀ side n n', Side.Leads side 0 n n' →
      P.comparison.Steps (some side) w c P.comparison.Flows (step n) (step' n')) :
    SameEndings next (step · m) (step' · m') where
  onward n hends := by
    have hresults := h .first n (4 * n) le_rfl m m' hm
    obtain hsame | ⟨-, m, hgone⟩ | ⟨⟨⟩, -⟩ := sameEnding_of_results hwraps hsame hresults
    · exact ⟨4 * n, hsame⟩
    · exact absurd hgone (hends m)
  back n' hends := by
    have hresults := h .second (4 * n') n' le_rfl m m' hm
    obtain hsame | ⟨⟨⟩, -⟩ | ⟨-, m, hgone⟩ := sameEnding_of_results hwraps hsame hresults
    · exact ⟨4 * n', hsame⟩
    · exact absurd hgone (hends m)

end Layered

end Lox
