import Mathlib
import Lox.Proofs.Execution.Returning
import Lox.Proofs.Session.History

namespace Lox.Session

variable {runs : List Run}

/-- No `return` stands outside the functions of a program that runs. -/
theorem Visits.returnsAny_eq_false {n : Nat} {program : List (Stmt RefId)} {m : Machine}
    (h : Visits runs ⟨n, .run program, m⟩) : Stmt.returnsAny program = false := by
  generalize hp : (⟨n, .run program, m⟩ : Point) = p at h
  induction h generalizing n program m with
  | first _ haccepted =>
    cases hp
    exact Stmt.returnsAny_of_findings (findings_errors_of_faults haccepted)
  | enters _ henters ih =>
    subst hp
    cases henters with
    | otherRun => exact (Stmt.returnsAny_cons.mp (ih rfl)).2

/-- Every statement of a program that runs ends normally if it ends well, so the run is the same as
    one that would stop at a `return`. A call has its value from a `return` of its own body, through
    whatever blocks, branches and loops, and leaves what that `return` has left; of the statements
    behind, and the turns of the loops around, none is begun. Or there was none, its body has come
    to its end, and the value is `nil`. -/
theorem returns_end_calls :
    (∀ (runs : List Run) (n : Nat) (program : List (Stmt RefId)) (m : Machine),
      Visits runs ⟨n, .run program, m⟩ →
        (∀ s rest flow m', program = s :: rest → execute n s m = .ok flow m' → flow = .normal) ∧
        runProgram n program m = (Step.inOrder (execute n) program >>= fun _ => pure ()) m) ∧
    ∀ (n : Nat) (f : Closure) (arguments : List Value) (paren : Token) (m : Machine),
      (∀ body q keyword e value m',
        Point.Enters ⟨n + 1, .call (.function f) arguments paren, m⟩ body → body.Contains q →
        q.task = .execute (.return keyword e) → q.Returns value m' →
          call (n + 1) (.function f) arguments paren m =
            .ok value { m' with environment := m.environment, callDepth := m.callDepth } ∧
          ∀ p part task, body.Contains p → p.Enters part → part.Contains q →
            p.Behind part task → ¬ ∃ later, p.Enters later ∧ later.task = task) ∧
      ∀ value m', call (n + 1) (.function f) arguments paren m = .ok value m' →
        ∃ body, Point.Enters ⟨n + 1, .call (.function f) arguments paren, m⟩ body ∧
          body.task = .inOrder f.body ∧
          ((∃ q keyword e m₁, body.Contains q ∧ q.task = .execute (.return keyword e) ∧
              q.Returns value m₁ ∧
              m' = { m₁ with environment := m.environment, callDepth := m.callDepth }) ∨
            value = .nil ∧
              ∃ m₁, Step.inOrder (execute body.fuel) f.body body.machine = .ok .normal m₁) := by
  refine ⟨fun runs n program m hvisits => ?_, fun n f arguments paren m => ⟨?_, ?_⟩⟩
  · have hreturns := hvisits.returnsAny_eq_false
    refine ⟨?_, runProgram_eq_inOrder hreturns n m⟩
    rintro s rest flow m' rfl hok
    exact (neverReturns n).1 s (Stmt.returnsAny_cons.mp hreturns).1 m flow m' hok
  · rintro body q keyword e value m' hbody hcontains - hq
    cases hbody with
    | called hdepth =>
      have hcall := Point.call_eq_of_returns paren hdepth (hcontains.returns rfl hq)
      refine ⟨hcall, ?_⟩
      rintro p part task - hpart hmore hbehind
      have hstatements : part.task.isStatements := by cases hbehind <;> rfl
      exact hbehind.not_enters hpart (hmore.returns hstatements hq)
  · intro value m' hcall
    obtain ⟨hdepth, hends⟩ := Point.returns_or_normal_of_call hcall
    refine ⟨_, .called hdepth, rfl, ?_⟩
    obtain ⟨m₁, hreturns, rfl⟩ | hnormal := hends
    · obtain ⟨q, keyword, e, m₂, hcontains, htask, hq, rfl⟩ := hreturns.exists_return
      exact .inl ⟨q, keyword, e, m₂, hcontains, htask, hq, rfl⟩
    · exact .inr hnormal

/-- A function that returns out of a loop, from a branch of its body. -/
def returningRun : Run :=
  ⟨fun _ => 0, 10, "fun f() \x7b while (true) \x7b if (true) return true; f(); \x7d \x7d f();"⟩

def returningLoop : Stmt RefId :=
  .while (.literal (.bool true)) (.block
    [.if (.literal (.bool true))
      (.return ⟨.keyword .return, "return", 1, 35⟩ (some (.literal (.bool true)))) none,
    .expression
      (.call (.var 0 ⟨.identifier, "f", 1, 48⟩) ⟨.punct .rightParen, ")", 1, 50⟩ [])])

/-- The function, as the first statement of that run makes it. -/
def returningFunction : Closure :=
  ⟨0, ⟨.identifier, "f", 1, 4⟩, [], [returningLoop], 0⟩

def returningProgram : List (Stmt RefId) :=
  [.function returningFunction.name [] [returningLoop],
    .expression
      (.call (.var 1 ⟨.identifier, "f", 1, 57⟩) ⟨.punct .rightParen, ")", 1, 59⟩ [])]

theorem visits_returningRun :
    Visits [returningRun]
      ⟨10, .run returningProgram, (start fun _ => 0).opening returningRun⟩ := by
  have haccepted : ((start fun _ => 0).analysis returningRun.source).faults = [] := by
    decide +kernel
  have hprogram : ((start fun _ => 0).analysis returningRun.source).program =
      returningProgram := by
    cbv
  exact hprogram ▸ .first rfl haccepted

/-- A return in the loop of a function ends the call; the declaration of the function ends
    normally. -/
theorem returns_end_calls_in_loop :
    (∀ flow m', execute 10 (.function returningFunction.name [] [returningLoop])
      ((start fun _ => 0).opening returningRun) = .ok flow m' → flow = .normal) ∧
    ∀ m : Machine, m.callDepth < maxCallDepth → ∃ m',
      call 8 (.function returningFunction) [] returningFunction.name m = .ok (.bool true) m' := by
  obtain ⟨hprograms, hcalls⟩ := returns_end_calls
  refine ⟨fun flow m' => (hprograms _ _ _ _ visits_returningRun).1 _ _ flow m' rfl,
    fun m hdepth => ?_⟩
  obtain ⟨hreturn, -⟩ := hcalls 7 returningFunction [] returningFunction.name m
  have hbody : (Point.bodyOf 7 returningFunction [] m).Contains _ := .refl
  have hloop := (hbody.enters .firstInOrder rfl).enters .loop rfl
  have hblock := (hloop.enters (.turnBody rfl rfl) rfl).enters .block rfl
  have hcontains := (hblock.enters .firstInOrder rfl).enters (.thenBranch rfl rfl) rfl
  exact ⟨_, (hreturn _ _ _ _ _ _ (.called hdepth) hcontains rfl rfl).1⟩

end Lox.Session
