import Lox.Proofs.Execution.Remaining
import Lox.Proofs.Scoping.Depth
import Lox.Proofs.Session.History

/-!
What the points of a session have in common. All of them come before the machine that its latest run
leaves, so what two of them say of a frame agrees; and a reference stands at one place only, in
whichever source.
-/

namespace Lox.Session

variable {runs : List Run} {r : Run} {s s' : Session} {p q : Point}

/-- What a task of a run has left is there behind the run. -/
theorem Visits.exists_run (h : Visits runs p) :
    ∃ r earlier s, runs = r :: earlier ∧ after earlier = some s ∧
      (s.analysis r.source).faults = [] ∧
      p.after.Precedes
        ((runProgram r.fuel (s.analysis r.source).program).after (s.opening r)) := by
  induction h with
  | first hs haccepted => exact ⟨_, _, _, rfl, hs, haccepted, .refl _⟩
  | enters _ henters ih =>
    obtain ⟨r, earlier, s, hruns, hs, haccepted, hafter⟩ := ih
    exact ⟨r, earlier, s, hruns, hs, haccepted, henters.after_precedes.trans hafter⟩

/-- A point is visited before the latest run or in it. -/
theorem visited_cons_iff : Visited (r :: runs) p ↔ Visited runs p ∨ Visits (r :: runs) p := by
  constructor
  · rintro ⟨runs', hsuffix, hvisits⟩
    rcases List.suffix_cons_iff.mp hsuffix with rfl | hsuffix
    · exact .inr hvisits
    · exact .inl ⟨runs', hsuffix, hvisits⟩
  · rintro (hvisited | hvisits)
    · exact visited_cons hvisited
    · exact ⟨_, List.suffix_refl _, hvisits⟩

/-- A run starts behind the machine that the session left. -/
theorem precedes_opening (s : Session) (r : Run) : s.machine.Precedes (s.opening r) := by
  refine ⟨globals_opening s r, ?_, fun f _ => ?_⟩ <;> rw [store_opening]

/-- There is a machine behind all points of a session. -/
theorem exists_last (runs : List Run) : ∃ last : Machine,
    (∀ p, Visited runs p → p.machine.Precedes last) ∧
      ∀ s, after runs = some s → last.Precedes s.machine := by
  induction runs with
  | nil =>
    refine ⟨(start fun _ => 0).machine, ?_, fun s hs => ?_⟩
    · rintro p ⟨runs', hsuffix, hvisits⟩
      obtain ⟨r, runs, s, rfl, -⟩ := hvisits.exists_run
      simp at hsuffix
    · obtain rfl := Option.some.inj hs
      exact .refl _
  | cons r runs ih =>
    obtain ⟨last, hvisited, hlast⟩ := ih
    by_cases hrun : ∃ s, after runs = some s ∧ (s.analysis r.source).faults = []
    · obtain ⟨s, hs, haccepted⟩ := hrun
      let m := (runProgram r.fuel (s.analysis r.source).program).after (s.opening r)
      have hm : last.Precedes m :=
        ((hlast s hs).trans (precedes_opening s r)).trans (evolves_runProgram _ _ _).precedes
      refine ⟨m, fun p hp => ?_, fun s' hs' => ?_⟩
      · refine (visited_cons_iff.mp hp).elim (fun hearlier => (hvisited p hearlier).trans hm)
          fun hvisits => ?_
        obtain ⟨r', runs', s', hruns, hs', -, hafter⟩ := hvisits.exists_run
        obtain ⟨rfl, rfl⟩ := List.cons.inj hruns
        obtain rfl := Option.some.inj (hs.symm.trans hs')
        exact p.evolves.precedes.trans hafter
      · obtain ⟨s₀, hs₀, -, ⟨-, hm'⟩ | ⟨hrejected, -⟩⟩ := after_cons_cases hs'
        · obtain rfl := Option.some.inj (hs.symm.trans hs₀)
          exact hm' ▸ .refl _
        · obtain rfl := Option.some.inj (hs.symm.trans hs₀)
          exact absurd haccepted hrejected
    · refine ⟨last, fun p hp => ?_, fun s' hs' => ?_⟩
      · refine (visited_cons_iff.mp hp).elim (hvisited p) fun hvisits => ?_
        obtain ⟨r', runs', s, hruns, hs, haccepted, -⟩ := hvisits.exists_run
        obtain ⟨rfl, rfl⟩ := List.cons.inj hruns
        exact absurd ⟨s, hs, haccepted⟩ hrun
      · obtain ⟨s, hs, -, ⟨haccepted, -⟩ | ⟨-, rfl⟩⟩ := after_cons_cases hs'
        · exact absurd ⟨s, hs, haccepted⟩ hrun
        · have hsame := hlast s hs
          exact ⟨hsame.globals, hsame.next_le, hsame.parent?⟩

/-- References of the same identity stand at the same place of the same source. -/
theorem scopes_eq_of_reference {p q : Place} {ref : RefId} {name name' : Token}
    (hp : (survey runs).place p) (hq : (survey runs).place q)
    (href : (ref, name) ∈ p.expression.references)
    (href' : (ref, name') ∈ q.expression.references) :
    p.nest.scopes = q.nest.scopes ∧ name = name' := by
  induction runs with
  | nil =>
    obtain ⟨a, ⟨r, runs', s, hsuffix, -⟩, -⟩ := hp
    simp at hsuffix
  | cons r runs ih =>
    -- An earlier reference has an identity below those of the latest source.
    have hapart {p q : Place} {name name' : Token} {s : Session} (hs : after runs = some s)
        (hp : (survey runs).place p) (hq : q ∈ placesOf (s.analysis r.source).program)
        (href : (ref, name) ∈ p.expression.references)
        (href' : (ref, name') ∈ q.expression.references) : False := by
      have hlt := (settled_of_after hs).known p hp _ href
      rw [program_analysis] at hq
      exact absurd (bounds_of_place hq href').1 (Nat.not_le_of_lt hlt)
    obtain ⟨a, ha, hpa⟩ := hp
    obtain ⟨b, hb, hqb⟩ := hq
    rcases accepted_cons_iff.mp ha with ha | ⟨s, hs, rfl, -⟩
    · rcases accepted_cons_iff.mp hb with hb | ⟨s, hs, rfl, -⟩
      · exact ih ⟨a, ha, hpa⟩ ⟨b, hb, hqb⟩
      · exact (hapart hs ⟨a, ha, hpa⟩ hqb href href').elim
    · rcases accepted_cons_iff.mp hb with hb | ⟨s', hs', rfl, -⟩
      · exact (hapart hs ⟨b, hb, hqb⟩ hpa href' href).elim
      · obtain rfl := Option.some.inj (hs.symm.trans hs')
        have hmem := mem_scopedReferences hpa href
        have hmem' := mem_scopedReferences hqb href'
        rw [program_analysis] at hmem hmem'
        have hsame := List.inj_on_of_nodup_map nodup_scopedReferences hmem hmem' rfl
        simpa using hsame

/-- Statements with a reference stand equally deep wherever they stand. -/
theorem length_eq_of_referencesAll {nest nest' : Nest} {ss : List (Stmt RefId)}
    (hplaces : ∀ p ∈ (Stmt.placesAll nest ss).1, (survey runs).place p)
    (hplaces' : ∀ p ∈ (Stmt.placesAll nest' ss).1, (survey runs).place p)
    (hreferences : Stmt.referencesAll ss ≠ []) : nest.length = nest'.length := by
  obtain ⟨reference, hmem⟩ := List.exists_mem_of_ne_nil _ hreferences
  rw [Stmt.references_placesAll nest] at hmem
  obtain ⟨p, hp, href⟩ := List.mem_flatMap.mp hmem
  obtain ⟨q, hq, hexpression, hdepth⟩ := Stmt.matches_placesAll nest nest' ss p hp
  have hscopes := (scopes_eq_of_reference (hplaces p hp) (hplaces' q hq) href
    (hexpression ▸ href)).1
  have hlength := congrArg List.length hscopes
  simp only [Nest.scopes, List.length_map] at hlength
  omega

end Lox.Session
