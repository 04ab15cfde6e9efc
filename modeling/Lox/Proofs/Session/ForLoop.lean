import Mathlib
import Lox.Proofs.Execution.ForLoop
import Lox.Proofs.Session.Grounding

namespace Lox.Session

variable {runs : List Run} {p : Point}

/-- A run has one table of distances, from its beginning on. -/
theorem Visits.exists_opening (h : Visits runs p) :
    ∃ r earlier s, runs = r :: earlier ∧ after earlier = some s ∧
      p.machine.distances = (s.opening r).distances := by
  induction h with
  | first hs => exact ⟨_, _, _, rfl, hs, rfl⟩
  | enters _ henters ih =>
    obtain ⟨r, earlier, s, hruns, hs, hdistances⟩ := ih
    refine ⟨r, earlier, s, hruns, hs, ?_⟩
    obtain ⟨-, hevolves⟩ | ⟨body, -, hm⟩ | ⟨f, arguments, paren, -, -, hm⟩ := henters.machine_cases
    · exact hevolves.distances.trans hdistances
    · rw [hm]
      exact hdistances
    · rw [hm]
      exact hdistances

/-- Where a statement is executed, the machine is sound, and its table has the distances of the
    statement among the scopes around it. -/
theorem Visits.sound {n : Nat} {s : Stmt RefId} {m : Machine}
    (h : Visits runs ⟨n, .execute s, m⟩) :
    ∃ nest first, m.Sound first ∧ ∀ p ∈ (s.places nest).1, p.Known m.distances := by
  obtain ⟨nest, hready⟩ := h.ready
  obtain ⟨r, earlier, session, rfl, hs, hdistances⟩ := h.exists_opening
  obtain ⟨hstands, -, hplaces, -⟩ := hready.placed
  have hsettled := settled_of_after hs
  refine ⟨nest, (session.analysis r.source).next, ?_, fun p hp => ?_⟩
  · refine hready.consistent.sound h.grounded (hstands.realizes.lt_next hready.consistent)
      (hsettled.known_cons hs) fun ref href => ?_
    have hunknown := hsettled.unknown ref (Nat.le_trans (next_le_analysis session r.source) href)
    rw [next_analysis] at href
    rw [hdistances, distances_opening, getElem?_learn_of_lt (.inr href), hunknown]
  · exact hready.consistent.distances p (hplaces p hp)

/-- The desugaring of a `for` statement preserves its meaning. Every `for` statement of the grammar
    has its clauses and is read as their tree. On every sound machine that has the distances of the
    tree among the scopes around it, the tree ends as the clauses do that are run in one scope; and
    every machine on which a program of a session executes the tree is such a machine. -/
theorem for_means_clauses :
    (∀ nearest dangling ts us initializer condition increment body,
      Grammar.DerivesInitializer ts initializer →
      Grammar.Category.statement.Derives nearest us body dangling →
        ∃ l : ForLoop Unit, (l.initializer, l.condition, l.increment, l.body) =
            (initializer, condition, increment, body) ∧
          l.tree = Grammar.forLoop initializer condition increment body) ∧
    (∀ (l : ForLoop Unit) nest k fresh m, Machine.Sound fresh m →
      (∀ p ∈ ((l.tree.number k).1.places nest).1, p.Known m.distances) →
        l.SameMeaning nest k fresh m) ∧
    ∀ (l : ForLoop Unit) runs fuel k m,
      Visits runs ⟨fuel, .execute (l.tree.number k).1, m⟩ →
        ∃ nest fresh, m.Sound fresh ∧
          ∀ p ∈ ((l.tree.number k).1.places nest).1, p.Known m.distances :=
  ⟨fun _ _ _ _ _ condition increment _ hfirst hbody =>
      Grammar.exists_forLoop hfirst hbody condition increment,
    fun l _ _ _ _ hm hknown => l.sameMeaning hm hknown, fun _ _ _ _ _ h => h.sound⟩

/-- A loop whose body makes a function and calls it. -/
def closingSource : String :=
  "for (var i = true; i; i = false) \x7b fun f() \x7b print i; \x7d f(); \x7d"

def closingLoop : ForLoop Unit where
  initializer := some (.var ⟨.identifier, "i", 1, 9⟩ (some (.literal (.bool true))))
  condition := some (.var () ⟨.identifier, "i", 1, 19⟩)
  increment := some (.assign () ⟨.identifier, "i", 1, 22⟩ (.literal (.bool false)))
  body := .block
    [.function ⟨.identifier, "f", 1, 39⟩ []
      [.print (.var () ⟨.identifier, "i", 1, 51⟩)],
    .expression (.call (.var () ⟨.identifier, "f", 1, 56⟩) ⟨.punct .rightParen, ")", 1, 58⟩ [])]
  initializes := by
    rintro s ⟨⟩
    rfl
  plain := by simp [Stmt.Plain, Stmt.Proper, Stmt.ProperAll, Stmt.declares]

def closingRun : Run :=
  ⟨fun _ => 0, 12, closingSource⟩

theorem visits_closingRun :
    Visits [closingRun] ⟨12, .execute (closingLoop.tree.number 0).1,
      (start fun _ => 0).opening closingRun⟩ := by
  have haccepted : ((start fun _ => 0).analysis closingRun.source).faults = [] := by
    decide +kernel
  have hprogram : ((start fun _ => 0).analysis closingRun.source).program =
      [(closingLoop.tree.number 0).1] := by
    cbv
  have hstart : after [] = some (start fun _ => 0) := rfl
  have hfirst := Visits.first (r := closingRun) hstart haccepted
  rw [hprogram] at hfirst
  exact hfirst.enters .firstRun

/-- A function that is made in the body of a loop finds the variable of the initializer. -/
theorem for_means_clauses_in_closure :
    ∃ nest fresh n flow m, (closingLoop.number fresh).1.run n
        { (start fun _ => 0).opening closingRun with
          distances := (closingLoop.number fresh).1.learned nest
            ((start fun _ => 0).opening closingRun).distances } = .ok flow m ∧
      m.output = "true\n" := by
  have hstop : ((execute 12 (closingLoop.tree.number 0).1).stop?
      ((start fun _ => 0).opening closingRun)).isNone = true := by
    decide +kernel
  have houtput : ((execute 12 (closingLoop.tree.number 0).1).after
      ((start fun _ => 0).opening closingRun)).output = "true\n" := by
    decide +kernel
  obtain ⟨-, hmeaning, hvisited⟩ := for_means_clauses
  obtain ⟨nest, fresh, hsound, hknown⟩ := hvisited _ _ _ _ _ visits_closingRun
  have hendings := (hmeaning _ nest 0 fresh _ hsound hknown).endings
  generalize (start fun _ => 0).opening closingRun = opening at hendings hstop houtput ⊢
  obtain ⟨flow', htree⟩ := Step.exists_ok (Option.isNone_iff_eq_none.mp hstop)
  obtain ⟨n, flow, m, hrun, hagree⟩ := hendings.exists_ok htree
  exact ⟨nest, fresh, n, flow, m, hrun, hagree.output.symm.trans houtput⟩

end Lox.Session
