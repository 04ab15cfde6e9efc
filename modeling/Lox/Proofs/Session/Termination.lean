import Mathlib
import Lox.Proofs.Execution.Termination
import Lox.Proofs.Session.Gate

namespace Lox.Session

/-- The functions of the session have no loops, and none of them is being called. -/
structure LoopFree (s : Session) : Prop where
  machine : s.machine.LoopFree
  callDepth : s.machine.callDepth = 0

variable {s : Session} {source : String}

/-- A session that has run nothing has no loops. -/
theorem loopFree_start (reading : Nat → Float) : LoopFree (start reading) where
  machine f name closure hread := by
    cases eq_clock_of_read?_start hread
  callDepth := rfl

/-- A source without loops has one answer, if there is enough fuel. -/
theorem LoopFree.run? (h : s.LoopFree) (hsource : Stmt.loopsAny (statementsOf source) = false)
    (reading : Nat → Float) : ∃ answer s' bound, LoopFree s' ∧
      ∀ fuel ≥ bound, (s.withReadings reading).run? fuel source = some (answer, s') := by
  by_cases haccepted : (s.analysis source).faults = []
  · have hloops : Stmt.loopsAny (s.analysis source).program = false :=
      (Stmt.loopsAny_numberAll s.next (statementsOf source)).trans hsource
    have hopening : (s.opening ⟨reading, 0, source⟩).LoopFree := h.machine
    obtain ⟨size, result, hhalted, bound, hresult⟩ := hopening.halts_runProgram hloops
    have hrun (fuel : Nat) := run?_of_accepted (r := ⟨reading, fuel, source⟩) haccepted
    dsimp only at hrun
    have hsame (fuel : Nat) : s.opening ⟨reading, fuel, source⟩ = s.opening ⟨reading, 0, source⟩ :=
      rfl
    cases hhalted with
    | @ok _ m _ hm hdepth =>
      refine ⟨⟨.success, m.output⟩, ⟨m, (s.analysis source).next, s.sawRuntimeError⟩, bound,
        ⟨hm.loopFree, hdepth.trans h.callDepth⟩, fun fuel hfuel => ?_⟩
      rw [hrun, hsame, hresult fuel hfuel]
    | @error e m hm hdepth =>
      refine ⟨⟨.runtimeError e, m.output⟩, ⟨m, (s.analysis source).next, true⟩, bound,
        ⟨hm.loopFree, hdepth.trans h.callDepth⟩, fun fuel hfuel => ?_⟩
      rw [hrun, hsame, hresult fuel hfuel]
  · refine ⟨⟨.staticFaults (s.analysis source).faults, ""⟩,
      { s.withReadings reading with next := (s.analysis source).next }, 0,
      ⟨h.machine, h.callDepth⟩, fun fuel _ => ?_⟩
    exact run?_of_rejected (r := ⟨reading, fuel, source⟩) haccepted

/-- A session of such sources has the answers to all of them. -/
theorem LoopFree.replies? (h : s.LoopFree) {lines : List Run}
    (hlines : ∀ r ∈ lines, Stmt.loopsAny (statementsOf r.source) = false) :
    ∃ answers s' bound, ∀ fuel ≥ bound,
      s.replies? (lines.map fun r => { r with fuel }) = some (answers, s') := by
  induction lines generalizing s with
  | nil => exact ⟨[], s, 0, fun _ _ => rfl⟩
  | cons r lines ih =>
    obtain ⟨hr, hrest⟩ := List.forall_mem_cons.mp hlines
    obtain ⟨answer, s₁, bound₁, hs₁, hrun⟩ := h.run? hr r.reading
    obtain ⟨answers, s', bound₂, hreplies⟩ := ih hs₁ hrest
    refine ⟨answer :: answers, s', max bound₁ bound₂, fun fuel hfuel => ?_⟩
    rw [List.map_cons, Session.replies?, hrun fuel ((Nat.le_max_left _ _).trans hfuel),
      Option.bind_some, hreplies fuel ((Nat.le_max_right _ _).trans hfuel)]
    rfl

/-- Only loops go on for ever. On a machine whose functions have no loops every expression comes to
    an end, and so does every statement without loops: to a value, to a flow, or to an error of the
    program. So a session whose sources have no loops has all its answers, whatever functions they
    declare, pass on, keep and call. -/
theorem terminates_without_loops :
    (∀ m : Machine, m.LoopFree → (∀ e, Step.Terminates (evaluate · e) m) ∧
      ∀ s : Stmt RefId, s.loops = false → Step.Terminates (execute · s) m) ∧
    ∀ (reading : Nat → Float) (lines : List Run),
      (∀ r ∈ lines, Stmt.loopsAny (statementsOf r.source) = false) →
      ∃ answers s bound, ∀ fuel ≥ bound,
        (start reading).replies? (lines.map fun r => { r with fuel }) = some (answers, s) := by
  refine ⟨fun m hm => ⟨hm.terminates_evaluate, fun s => hm.terminates_execute⟩,
    fun reading lines hlines => ?_⟩
  exact (loopFree_start reading).replies? hlines

/-- Functions that call each other through a global, one that never stops calling what it was
    passed, and a line that comes after it. -/
def recursingLines : List Run :=
  [line "var g; fun f(n) \x7b if (n > 0) return g(n - 1); return n; \x7d",
    line "g = f; print f(9);", line "fun again(h) \x7b h(h); \x7d again(again);",
    line "print f(3);"]

/-- A call of the global `f`. -/
def callOfF : Expr RefId :=
  .call (.var 0 ⟨.identifier, "f", 1, 0⟩) (.atEnd 1 3) []

/-- A machine on which `f` calls itself and does nothing else. -/
def recursingMachine : Machine :=
  let m := Machine.start fun _ => 0
  let f : Closure := ⟨0, ⟨.identifier, "f", 1, 0⟩, [], [.expression callOfF], 0⟩
  { m with store := m.store.define 0 "f" (.function f) }

theorem loopFree_recursingMachine : recursingMachine.LoopFree := by
  intro f name closure hread
  rcases Store.read?_define hread with heq | hread
  · cases heq
    rfl
  · exact (loopFree_start fun _ => 0).machine f name closure hread

/-- Recursion without an end comes to an end, as an error. -/
theorem terminates_without_loops_in_recursion :
    Step.Terminates (evaluate · callOfF) recursingMachine ∧
    Step.Terminates (execute · (.print callOfF)) recursingMachine ∧
    (∀ r ∈ recursingLines, Stmt.loopsAny (statementsOf r.source) = false) ∧
    ∃ answers s bound, ∀ fuel ≥ bound, (start fun _ => 0).replies?
      (recursingLines.map fun r => { r with fuel }) = some (answers, s) := by
  have hlines : ∀ r ∈ recursingLines, Stmt.loopsAny (statementsOf r.source) = false := by
    decide +kernel
  obtain ⟨hmachine, hsession⟩ := terminates_without_loops
  obtain ⟨hevaluate, hexecute⟩ := hmachine _ loopFree_recursingMachine
  exact ⟨hevaluate callOfF, hexecute (.print callOfF) rfl, hlines, hsession _ _ hlines⟩

end Lox.Session
