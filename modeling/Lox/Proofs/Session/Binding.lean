import Mathlib
import Lox.Session
import Lox.Proofs.Execution.Binding

namespace Lox.Session

/-- In the frames of any machine, an expression binds no name and unbinds none, with all the calls
    that it makes, and nor does a statement of a program; only a variable or a function that is
    declared adds its own name, to the frame in which the declaration is executed and if that
    succeeds. Names that are bound stay bound through whole programs. -/
theorem binds_own_declarations (fuel : Nat) (m : Machine) :
    (∀ e, m.SameNames ((evaluate fuel e).after m)) ∧
      (∀ f arguments paren, m.SameNames ((call fuel f arguments paren).after m)) ∧
      (∀ next source path s,
        (Node.program (Analysis.ofSource next source).program).at? path = some (.statement s) →
          ∀ f < m.store.next, ∀ name,
            ((execute fuel s).after m).store.binds f name = true ↔
              m.store.binds f name = true ∨
                f = m.environment ∧ (∃ flow m', execute fuel s m = .ok flow m') ∧
                  ∃ t, (Node.statement s).declared? = some t ∧ t.lexeme = name) ∧
      ∀ program f name, m.store.binds f name = true →
        ((runProgram fuel program).after m).store.binds f name = true := by
  obtain ⟨hevaluate, hcall, -⟩ := evolves fuel
  refine ⟨fun e => (hevaluate e m).sameNames, fun f arguments paren =>
    (hcall f arguments paren m).sameNames, fun next source path s hat f hf name => ?_,
    fun program => (evolves_runProgram fuel program m).binds⟩
  have hprogram : (Node.program (Analysis.ofSource next source).program).Proper :=
    (Grammar.properAll_program (Tokens.ofString source).tokens).number next
  have hproper : s.Proper := hprogram.at? hat
  exact binds_execute_iff hproper hf

/-- A function with a variable of its own, of the name of one in its closure. -/
def shadowingSource : String :=
  "\x7b var a; fun f() \x7b var a = true; \x7d f(); \x7d"

/-- The declaration in the body binds its name in the current frame. -/
theorem binds_own_declarations_in_function :
    ∃ s, (Node.program (Analysis.ofSource 0 shadowingSource).program).at? [0, 1, 0] =
        some (.statement s) ∧
      ((execute 2 s).after (.start fun _ => 0)).store.binds 0 "a" = true := by
  have hat : (Node.program (Analysis.ofSource 0 shadowingSource).program).at? [0, 1, 0] =
      some (.statement (.var ⟨.identifier, "a", 1, 23⟩ (some (.literal (.bool true))))) := by
    cbv
  obtain ⟨-, -, hstatements, -⟩ := binds_own_declarations 2 (.start fun _ => 0)
  refine ⟨_, hat, (hstatements 0 shadowingSource _ _ hat 0 Nat.zero_lt_one "a").mpr ?_⟩
  exact .inr ⟨rfl, ⟨_, _, rfl⟩, _, rfl, rfl⟩

end Lox.Session
