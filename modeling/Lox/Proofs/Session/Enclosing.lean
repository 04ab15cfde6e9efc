import Mathlib
import Lox.Proofs.Execution.Layered
import Lox.Proofs.Scoping.Enclosing
import Lox.Proofs.Session.Grounding
import Lox.Proofs.Session.Sequence

namespace Lox.Session

section Answers

/-- The answer to a program that ends so. -/
def answer? : EStateM.Result Stop Machine Unit → Option Answer
  | .ok _ m => some ⟨.success, m.output⟩
  | .error (.error e) m => some ⟨.runtimeError e, m.output⟩
  | .error .outOfFuel _ => none

/-- The answer of a program is that of its run. -/
theorem map_fst_perform? (fuel : Nat) (s : Session) (ss : List (Stmt Unit)) :
    (s.perform? fuel ss).map Prod.fst =
      answer? (runProgram fuel (Stmt.numberAll s.next ss).1 (s.loaded ss)) := by
  unfold perform?
  cases runProgram fuel (Stmt.numberAll s.next ss).1 (s.loaded ss) with
  | ok u m => rfl
  | error stop m => cases stop <;> rfl

variable {P : Layered} {w : Pairing Level} {c : Layout} {answer : Answer}
  {good : Pairing Level → Unit → Unit → Prop} {result result' : EStateM.Result Stop Machine Unit}

/-- What answers on the first side answers the same on the second. -/
theorem answer?_of_first (h : P.comparison.Results w c good (some .first) result result')
    (hanswer : answer? result = some answer) : answer? result' = some answer := by
  cases h with
  | ok _ _ hm => rwa [answer?, hm.output.trans (String.empty_append ..)]
  | error _ herror hm =>
    rwa [answer?, hm.output.trans (String.empty_append ..), ← Layered.eq_of_errors herror]
  | first => cases hanswer

theorem answer?_of_second (h : P.comparison.Results w c good (some .second) result result')
    (hanswer : answer? result' = some answer) : answer? result = some answer := by
  cases h with
  | ok _ _ hm => rwa [answer?, ← hm.output.trans (String.empty_append ..)]
  | error _ herror hm =>
    rwa [answer?, ← hm.output.trans (String.empty_append ..), Layered.eq_of_errors herror]
  | second => cases hanswer

/-- Programs that correspond give the same answer, if they are given enough fuel. -/
theorem exists_answer?_iff {m m' : Machine} {ss ss' : List (Stmt RefId)}
    (hm : P.comparison.Machines w c m m') (hstatements : P.StatementsAll c ss ss') :
    (∃ fuel, answer? (runProgram fuel ss m) = some answer) ↔
      ∃ fuel, answer? (runProgram fuel ss' m') = some answer := by
  constructor
  · rintro ⟨fuel, hanswer⟩
    have hlead : Side.first.Leads 0 fuel (4 * fuel) := le_refl (4 * fuel)
    exact ⟨4 * fuel, answer?_of_first (Layered.runProgram_steps hstatements hlead m m' hm) hanswer⟩
  · rintro ⟨fuel, hanswer⟩
    have hlead : Side.second.Leads 0 (4 * fuel) fuel := le_refl (4 * fuel)
    exact ⟨4 * fuel, answer?_of_second (Layered.runProgram_steps hstatements hlead m m' hm) hanswer⟩

/-- What one of two such programs prints, the other begins with once it has enough fuel. -/
theorem exists_output_eq {m m' : Machine} {ss ss' : List (Stmt RefId)}
    (hm : P.comparison.Machines w c m m') (hstatements : P.StatementsAll c ss ss')
    {fuel fuel' : Nat} (hfuel : 4 * fuel ≤ fuel') :
    (∃ rest, ((runProgram fuel' ss').after m').output =
        ((runProgram fuel ss).after m).output ++ rest) ∧
      ∃ rest, ((runProgram fuel' ss).after m).output =
        ((runProgram fuel ss').after m').output ++ rest := by
  have hfirst : Side.first.Leads 0 fuel fuel' := hfuel
  have hsecond : Side.second.Leads 0 fuel' fuel := hfuel
  obtain ⟨rest, houtput⟩ :=
    (Layered.runProgram_steps hstatements hfirst m m' hm).output_first
  obtain ⟨rest', houtput'⟩ :=
    (Layered.runProgram_steps hstatements hsecond m m' hm).output_second
  rw [show P.comparison.before = "" from rfl, String.empty_append] at houtput houtput'
  exact ⟨⟨rest, houtput⟩, rest', houtput'⟩

end Answers

variable {runs : List Run} {s : Session} {ss ss' : List (Stmt Unit)} {t : Stmt Unit}

/-- A program that is about to run has the distances that scoping finds. -/
theorem Settled.known_loaded (h : Settled runs s) (ss : List (Stmt Unit)) :
    ∀ p ∈ placesOf (Stmt.numberAll s.next ss).1, p.Known (s.loaded ss).distances :=
  fun _ hp _ hreference => getElem?_learn h.unknown hp hreference

/-- The same session, about to run one of two programs. -/
theorem machines_loaded (hs : after runs = some s) (ss ss' : List (Stmt Unit)) (wraps : Prop) :
    (Layered.comparison ⟨(s.loaded ss).distances, (s.loaded ss').distances, wraps⟩).Machines
      (.same s.machine.store.next) [] (s.loaded ss) (s.loaded ss') := by
  have hsound : Machine.Sound s.next { s.machine with output := "" } :=
    { sound_of_after hs with }
  refine Layered.machines_same hsound fun ref hlt => ?_
  exact (getElem?_learn_of_lt (.inl hlt)).trans (getElem?_learn_of_lt (.inl hlt)).symm

/-- The distances with and without a block around `t`: from inside the statement every scope around
    it is one further away, and nothing else changes. -/
structure Deepened (t : Stmt RefId) (table table' : Distances) : Prop where
  inside : ∀ p ∈ (t.places []).1, ∀ reference ∈ p.expression.references,
    table'[reference.1]? =
      (table[reference.1]?).map fun d => if p.nest.length ≤ d then d + 1 else d
  outside : ∀ ref : RefId, ref ∉ t.references.map Prod.fst → table'[ref]? = table[ref]?

/-- Loading the enclosed program deepens the distances of the references in the block. -/
theorem Settled.deepened_loaded (h : Settled runs s) {t : Stmt RefId} (hplain : t.Plain)
    (hproper : Stmt.ProperAll (Stmt.numberAll s.next ss).1)
    (henclosed : Stmt.EnclosedAll t (Stmt.numberAll s.next ss).1 (Stmt.numberAll s.next ss').1) :
    Deepened t (s.loaded ss).distances (s.loaded ss').distances where
  inside := by
    intro p hp reference hreference
    obtain ⟨outer, outer', hscopes, houter, houter'⟩ :=
      henclosed.places (rfl : Nest.scopes [] = Nest.scopes [])
    have hwithin (outer : Nest) : p.within outer ∈ (t.places outer).1 := by
      rw [← List.nil_append outer, Stmt.places_append [] outer t hplain.1 (.inr hplain.2)]
      exact List.mem_map_of_mem hp
    have hknown := h.known_loaded ss _ (houter (hwithin outer)) reference hreference
    have hknown' := h.known_loaded ss' _ (houter' (hwithin _)) reference hreference
    have hblock : Nest.scopes ((.block [t], []) :: outer') = [] :: outer.scopes :=
      congrArg ([] :: ·) hscopes
    have hlength : p.nest.scopes.length = p.nest.length := List.length_map _
    rw [hknown, hknown', Place.scopes_within, Place.scopes_within, hblock,
      Scope.distance?_append, hlength]
  outside := by
    intro ref href
    rcases Nat.lt_or_ge ref s.next with hlt | hle
    · exact (getElem?_learn_of_lt (.inl hlt)).trans (getElem?_learn_of_lt (.inl hlt)).symm
    · obtain ⟨hbesides, -⟩ := henclosed.findings hplain.2 hproper false []
      refine Option.ext fun d => ?_
      refine (getElem?_learn_iff h.unknown hle).trans ?_
      exact (hbesides.distances (ref, d) href).trans (getElem?_learn_iff h.unknown hle).symm

/-- With a block around a statement that declares nothing, wherever in an accepted program it
    stands, the program is accepted again and gives the same answer. From references in the
    statement the scopes around it are one further away, and no other distances change. What either
    program prints until its fuel is used up, the other begins with if it has four times as much. -/
theorem block_changes_nothing {source : String} (hs : after runs = some s)
    (haccepted : (s.analysis source).faults = [])
    (henclosed : Stmt.EnclosedAll t (statementsOf source) ss') (hdeclares : t.declares = false) :
    (findingsOf (Stmt.numberAll s.next ss').1).errors = [] ∧
      (∃ k, Stmt.EnclosedAll (t.number k).1 (Stmt.numberAll s.next (statementsOf source)).1
          (Stmt.numberAll s.next ss').1 ∧
        Deepened (t.number k).1 (s.loaded (statementsOf source)).distances
          (s.loaded ss').distances) ∧
      (∀ answer, (∃ fuel, (s.run? fuel source).map Prod.fst = some answer) ↔
        ∃ fuel, (s.perform? fuel ss').map Prod.fst = some answer) ∧
      ∀ fuel fuel', 4 * fuel ≤ fuel' →
        (∃ rest, s.printout fuel' ss' = s.printout fuel (statementsOf source) ++ rest) ∧
          ∃ rest, s.printout fuel' (statementsOf source) = s.printout fuel ss' ++ rest := by
  have hsettled := settled_of_after hs
  have hproper : Stmt.ProperAll (Stmt.numberAll s.next (statementsOf source)).1 :=
    properAll_program (r := ⟨fun _ => 0, 0, source⟩) haccepted
  obtain ⟨k, hnumbered, -⟩ := henclosed.number s.next
  have hplain : (t.number k).1.Plain :=
    ⟨hnumbered.proper hproper, (Stmt.declares_number k t).trans hdeclares⟩
  have herrors : (findingsOf (Stmt.numberAll s.next (statementsOf source)).1).errors = [] := by
    rw [← program_analysis]
    exact findings_errors_of_faults haccepted
  have hmachines := machines_loaded hs (statementsOf source) ss' True
  have hstatements := hnumbered.statements (P := ⟨(s.loaded (statementsOf source)).distances,
    (s.loaded ss').distances, True⟩) trivial hplain.2 hproper Layout.aligned_nil .same
    (hsettled.known_loaded _) (hsettled.known_loaded _)
  refine ⟨?_, ⟨k, hnumbered, hsettled.deepened_loaded hplain hproper hnumbered⟩, fun answer => ?_,
    fun fuel fuel' hfuel => exists_output_eq hmachines hstatements hfuel⟩
  · have hbesides := (hnumbered.findings hplain.2 hproper false []).1.errors
    exact List.sublist_nil.mp (herrors ▸ hbesides)
  · simp only [run?_eq_perform? haccepted, map_fst_perform?]
    exact exists_answer?_iff hmachines hstatements

/-- A function that is declared in a block, and called there. -/
def nestedSource : String :=
  "\x7b var a = true; fun f() \x7b return a; \x7d print f(); \x7d"

/-- The statement in the function. -/
def nestedReturn : Stmt Unit :=
  .return ⟨.keyword .return, "return", 1, 26⟩ (some (.var () ⟨.identifier, "a", 1, 33⟩))

/-- The tree of the source, with this statement in the function. -/
def nestedTree (s : Stmt Unit) : List (Stmt Unit) :=
  [.block [.var ⟨.identifier, "a", 1, 6⟩ (some (.literal (.bool true))),
    .function ⟨.identifier, "f", 1, 20⟩ [] [s],
    .print (.call (.var () ⟨.identifier, "f", 1, 44⟩) ⟨.punct .rightParen, ")", 1, 46⟩ [])]]

/-- A block around the return of a nested function leaves the answer as it is. -/
theorem block_changes_nothing_in_function :
    (findingsOf (Stmt.numberAll 0 (nestedTree (.block [nestedReturn]))).1).errors = [] ∧
      ∃ fuel, ((start fun _ => 0).perform? fuel (nestedTree (.block [nestedReturn]))).map Prod.fst =
        some ⟨.success, "true\n"⟩ := by
  have hstatements : statementsOf nestedSource = nestedTree nestedReturn := by cbv
  have haccepted : ((start fun _ => 0).analysis nestedSource).faults = [] := by decide +kernel
  have henclosed : Stmt.EnclosedAll nestedReturn (nestedTree nestedReturn)
      (nestedTree (.block [nestedReturn])) :=
    .first (.inBlock (.rest (.first (.inFunction (.first .here)))))
  have hanswer : ((start fun _ => 0).perform? 8 (nestedTree nestedReturn)).map Prod.fst =
      some ⟨.success, "true\n"⟩ := by cbv
  generalize nestedSource = source at hstatements haccepted
  rw [← hstatements] at henclosed hanswer
  rw [← run?_eq_perform? haccepted] at hanswer
  have hstart : after [] = some (start fun _ => 0) := rfl
  obtain ⟨herrors, -, hsame, -⟩ := block_changes_nothing hstart haccepted henclosed rfl
  exact ⟨herrors, (hsame _).mp ⟨8, hanswer⟩⟩

end Lox.Session
