import Mathlib
import Lox.Proofs.Execution.Calls
import Lox.Proofs.Session.History

namespace Lox

/-- What an expression or a statement may not leave changed, whether or not it had a value. -/
structure Machine.Restored (m m' : Machine) : Prop where
  environment : m'.environment = m.environment
  callDepth : m'.callDepth = m.callDepth
  globals : m'.globals = m.globals
  distances : m'.distances = m.distances

theorem Machine.Evolves.restored {declaring : Bool} {m m' : Machine}
    (h : m.Evolves declaring m') : m.Restored m' :=
  ⟨h.environment, h.callDepth, h.globals, h.distances⟩

/-- The problem that a step stopped with, if it was not for want of fuel. -/
def Stop.problem? : Stop → Option RuntimeProblem
  | .error e => some e.problem
  | .outOfFuel => none

namespace Session

variable {runs : List Run} {s : Session}

/-- Between two runs no call is in progress. -/
theorem callDepth_of_after (h : after runs = some s) : s.machine.callDepth = 0 := by
  induction runs generalizing s with
  | nil =>
    obtain rfl := Option.some.inj h
    rfl
  | cons r runs ih =>
    obtain ⟨s₀, hs₀, -, ⟨-, hm⟩ | ⟨-, rfl⟩⟩ := after_cons_cases h
    · have hbefore := ih hs₀
      rw [hm]
      exact (evolves_runProgram _ _ (s₀.opening r)).callDepth.trans hbefore
    · have hbefore := ih hs₀
      exact hbefore

/-- Every exit restores the machine. On the way, from any point at which no call is in progress, the
    machine counts the user calls that are, and there are never more than `maxCallDepth`. A further
    one stops at its own parenthesis just if there are that many; otherwise it hands out its body
    and stops as its body does. So a stack overflow comes from a call that found so many of them,
    wherever it is met. Between two runs the machine stands in the globals and no call is in
    progress. -/
theorem exits_restore :
    (∀ (n : Nat) (m : Machine), (∀ e, m.Restored ((evaluate n e).after m)) ∧
      ∀ s, m.Restored ((execute n s).after m)) ∧
    (∀ (start p : Point) (calls : List Closure), start.machine.callDepth = 0 →
      start.Reaches calls p →
        p.machine.callDepth = calls.length ∧ calls.length ≤ maxCallDepth ∧
        (∀ n f arguments paren, p.fuel = n + 1 → p.task = .call (.function f) arguments paren →
          if calls.length = maxCallDepth then
            call p.fuel (.function f) arguments paren p.machine =
              .error (.error ⟨paren, .stackOverflow⟩) p.machine
          else
            ∃ body : Point, p.Enters body ∧ body.task = .inOrder f.body ∧ p.stop? = body.stop?) ∧
        ∀ t, p.Overflows t → ∃ deeper q, p.Reaches deeper q ∧ q.Full t ∧
          (deeper ++ calls).length = maxCallDepth) ∧
    ∀ (runs : List Run) (s : Session), after runs = some s →
      s.machine.environment = s.machine.globals ∧ s.machine.callDepth = 0 := by
  refine ⟨fun n m => ⟨fun e => ((evolves n).1 e m).restored, fun s =>
    ((evolves n).2.2.1 s m).restored⟩, fun start p calls hstart hreaches => ?_, fun runs s hs =>
    ⟨(settled_of_after hs).environment, callDepth_of_after hs⟩⟩
  have hdepth {calls : List Closure} {q : Point} (h : start.Reaches calls q) :
      q.machine.callDepth = calls.length := by
    rw [h.callDepth, hstart, Nat.zero_add]
  have hbound {calls : List Closure} {q : Point} (h : start.Reaches calls q) :
      calls.length ≤ maxCallDepth := by
    rw [← hdepth h]
    exact h.callDepth_le (by omega)
  refine ⟨hdepth hreaches, hbound hreaches, fun n f arguments paren hfuel htask => ?_,
    fun t hoverflows => ?_⟩
  · obtain ⟨fuel, task, m⟩ := p
    obtain rfl : fuel = n + 1 := hfuel
    obtain rfl : task = .call (.function f) arguments paren := htask
    have hcount := hdepth hreaches
    by_cases hfull : calls.length = maxCallDepth
    · rw [if_pos hfull]
      exact Point.Full.call_eq (hcount.trans hfull).ge
    · rw [if_neg hfull]
      have hroom : m.callDepth < maxCallDepth :=
        hcount.trans_lt (Nat.lt_of_le_of_ne (hbound hreaches) hfull)
      exact ⟨_, .called hroom, rfl, Point.stop?_call hroom arguments paren⟩
  · obtain ⟨deeper, q, hdeeper, hfull⟩ := hoverflows.exists_full
    have hwhole := hreaches.trans hdeeper
    have hcount := hdepth hwhole
    have hle := hbound hwhole
    obtain ⟨hroom⟩ := hfull
    exact ⟨deeper, _, hdeeper, ⟨hroom⟩, hle.antisymm (hcount ▸ hroom)⟩

/-- A function that never stops calling itself. -/
def recursingRun : Run := ⟨fun _ => 0, 640, "fun f() \x7b f(); \x7d f();"⟩

/-- The point at which that run begins. -/
def recursion : Point :=
  ⟨recursingRun.fuel, .run ((start fun _ => 0).analysis recursingRun.source).program,
    (start fun _ => 0).opening recursingRun⟩

/-- A function that calls itself comes to the limit. -/
theorem exists_overflow_recursion : ∃ t, recursion.Overflows t := by
  have hproblem : recursion.stop?.bind Stop.problem? = some .stackOverflow := by
    decide +kernel
  obtain ⟨stop, hstop, hproblem⟩ := Option.bind_eq_some_iff.mp hproblem
  cases stop with
  | outOfFuel => cases hproblem
  | error e =>
    obtain ⟨t, problem⟩ := e
    obtain rfl := Option.some.inj hproblem
    exact ⟨t, hstop⟩

theorem exists_after_recursingRun : ∃ s, after [recursingRun] = some s := by
  have hsome : (after [recursingRun]).isSome = true := by
    decide +kernel
  exact Option.isSome_iff_exists.mp hsome

/-- The call at the limit overflows at its own parenthesis, with two hundred calls in progress. -/
theorem exits_restore_in_recursion :
    (∃ calls p n f arguments paren, recursion.Reaches calls p ∧ calls.length = maxCallDepth ∧
      call (n + 1) (.function f) arguments paren p.machine =
        .error (.error ⟨paren, .stackOverflow⟩) p.machine) ∧
    ∃ s, after [recursingRun] = some s ∧ s.machine.environment = s.machine.globals := by
  obtain ⟨-, hruns, hbetween⟩ := exits_restore
  obtain ⟨t, hoverflows⟩ := exists_overflow_recursion
  obtain ⟨s, hs⟩ := exists_after_recursingRun
  refine ⟨?_, s, hs, (hbetween _ s hs).1⟩
  obtain ⟨-, -, -, horigin⟩ := hruns recursion recursion [] rfl .refl
  obtain ⟨deeper, q, hreaches, ⟨hroom⟩, hlength⟩ := horigin t hoverflows
  rw [List.append_nil] at hlength
  obtain ⟨-, -, hcalls, -⟩ := hruns recursion _ deeper rfl hreaches
  have hcall := hcalls _ _ _ _ rfl rfl
  rw [if_pos hlength] at hcall
  exact ⟨deeper, _, _, _, _, _, hreaches, hlength, hcall⟩

end Session

end Lox
