import Lox.Proofs.Execution.Grounding
import Lox.Proofs.Session.History

namespace Lox.Session

variable {runs : List Run} {s : Session} {p : Point}

/-- Every run keeps the store built frame by frame. -/
theorem keeps_built (runs : List Run) : (survey runs).Keeps Store.Built := by
  rintro p m α step ⟨runs', -, hvisits⟩ hacts hm
  obtain ⟨nest, hready⟩ := hvisits.ready
  exact hready.built_after hacts hm

theorem built_start (reading : Nat → Float) : (Machine.start reading).store.Built := by
  have hglobals : (Store.empty.push (.empty none)).Built :=
    Store.Built.push .refl (fun _ hparent => by cases hparent) []
  exact hglobals.define 0 Native.clock.name (.native .clock)

theorem built_of_after (h : after runs = some s) : s.machine.store.Built := by
  induction runs generalizing s with
  | nil =>
    obtain rfl := Option.some.inj h
    exact built_start _
  | cons r runs ih =>
    obtain ⟨s₀, hs₀, -, ⟨haccepted, hm⟩ | ⟨-, rfl⟩⟩ := after_cons_cases h
    · have hvisited : (survey (r :: runs)).visited
          ⟨r.fuel, .run (s₀.analysis r.source).program, s₀.opening r⟩ :=
        ⟨r :: runs, List.suffix_refl _, .first hs₀ haccepted⟩
      have hopening : (s₀.opening r).store.Built := by
        rw [store_opening]
        exact ih hs₀
      have hafter := (keeps_built (r :: runs)).after hvisited hopening
      rw [hm]
      exact hafter
    · have hbefore := ih hs₀
      exact hbefore

/-- The store is built frame by frame at every visited point. -/
theorem Visits.built (h : Visits runs p) : p.machine.store.Built := by
  induction h with
  | @first runs r s hs haccepted =>
    change (s.opening r).store.Built
    rw [store_opening]
    exact built_of_after hs
  | @enters runs p q h henters ih =>
    exact (keeps_built runs).enters ⟨runs, List.suffix_refl _, h⟩ henters ih

theorem Visits.grounded (h : Visits runs p) : p.machine.store.Grounded :=
  h.built.grounded

/-- Between two runs no identity is in use that is still to be given. -/
theorem sound_of_after (h : after runs = some s) : s.machine.Sound s.next := by
  have hsettled := settled_of_after h
  refine hsettled.consistent.sound (built_of_after h).grounded ?_ hsettled.known hsettled.unknown
  rw [hsettled.environment]
  exact hsettled.consistent.globals_lt

end Lox.Session
