import Lox.Session
import Lox.Proofs.Execution.Resolution
import Lox.Proofs.Scoping.Table

/-!
Histories of sessions. A session has a history of runs, the latest first, and whatever its machine
holds was left there by some point that one of them has visited. Between two runs the machine
stands in the globals, agrees with the scopes of all sources that were accepted, and knows no
reference that is still to be numbered.
-/

namespace Lox

/-- One request to run a source, with the readings of the clock from then on. -/
structure Run where
  reading : Nat → Float
  fuel : Nat
  source : String

namespace Session

/-- The session after these runs, the latest first, if none of them ran out of fuel. -/
def after : List Run → Option Session
  | [] => some (.start fun _ => 0)
  | r :: runs =>
    (after runs).bind fun s => ((s.withReadings r.reading).run? r.fuel r.source).map Prod.snd

/-- What is known about a source when it is its turn. -/
def analysis (s : Session) (source : String) : Analysis :=
  .ofSource s.next source

/-- The statements of a source, before their references are numbered. -/
def statementsOf (source : String) : List (Stmt Unit) :=
  (Grammar.program (Tokens.ofString source).tokens).statements

/-- The program of a source is numbered from the next identity of the session. -/
theorem program_analysis (s : Session) (source : String) :
    (s.analysis source).program = (Stmt.numberAll s.next (statementsOf source)).1 := rfl

theorem next_analysis (s : Session) (source : String) :
    (s.analysis source).next = (Stmt.numberAll s.next (statementsOf source)).2 := rfl

theorem findings_analysis (s : Session) (source : String) :
    (s.analysis source).findings =
      findingsOf (Stmt.numberAll s.next (statementsOf source)).1 := rfl

/-- Scoping finds no error in a source without faults. -/
theorem findings_errors_of_faults {s : Session} {source : String}
    (h : (s.analysis source).faults = []) :
    (findingsOf (s.analysis source).program).errors = [] := by
  rw [program_analysis, ← findings_analysis]
  exact List.map_eq_nil_iff.mp (List.append_eq_nil_iff.mp h).2

/-- The machine on which an accepted source begins to run. -/
def opening (s : Session) (r : Run) : Machine :=
  { (s.withReadings r.reading).machine with output := "" }.learn (s.analysis r.source).findings

/-- The latest of these runs comes to this point. It may still be going on, or never end. -/
inductive Visits : List Run → Point → Prop
  | first {runs : List Run} {r : Run} {s : Session} (hs : after runs = some s)
      (haccepted : (s.analysis r.source).faults = []) :
      Visits (r :: runs) ⟨r.fuel, .run (s.analysis r.source).program, s.opening r⟩
  | enters {runs : List Run} {p q : Point} (h : Visits runs p) (henters : p.Enters q) :
      Visits runs q

/-- Some of these runs came to this point. -/
def Visited (runs : List Run) (p : Point) : Prop :=
  ∃ runs', runs' <:+ runs ∧ Visits runs' p

/-- This is what was known about one of these sources, and it was accepted. -/
def Accepted (runs : List Run) (a : Analysis) : Prop :=
  ∃ r runs' s, r :: runs' <:+ runs ∧ after runs' = some s ∧ a = s.analysis r.source ∧ a.faults = []

/-- The points and the places of these runs. -/
def survey (runs : List Run) : Survey where
  visited := Visited runs
  place p := ∃ a, Accepted runs a ∧ p ∈ placesOf a.program
  enters := by
    rintro p q ⟨runs', hruns, hvisits⟩ henters
    exact ⟨runs', hruns, hvisits.enters henters⟩
  faultless := by
    rintro p ⟨a, ⟨r, runs', s, -, -, rfl, hfaults⟩, hp⟩
    exact Place.faultless (findings_errors_of_faults hfaults) hp

variable {runs : List Run} {r : Run} {s s' : Session} {m : Machine}

/-- An accepted source is read without faults, and so is a program of the grammar. -/
theorem properAll_program (h : (s.analysis r.source).faults = []) :
    Stmt.ProperAll (s.analysis r.source).program := by
  have htext := (List.append_eq_nil_iff.mp (List.append_eq_nil_iff.mp h).1).2
  rw [List.map_eq_nil_iff] at htext
  obtain ⟨ts, last, htokens, hts, hlast⟩ := Tokens.exists_ofString_eq r.source
  have hproper : Stmt.ProperAll (statementsOf r.source) := by
    rw [statementsOf]
    rw [htokens] at htext ⊢
    exact (Grammar.program_sound hts hlast htext).proper
  rw [program_analysis]
  exact hproper.number s.next

/-- What holds between two runs. -/
structure Settled (runs : List Run) (s : Session) : Prop where
  consistent : (survey runs).Consistent s.machine
  environment : s.machine.environment = s.machine.globals
  unknown : ∀ ref : Nat, s.next ≤ ref → s.machine.distances[ref]? = none
  known : ∀ p, (survey runs).place p → ∀ r ∈ p.expression.references, r.1 < s.next

/-- What earlier runs have visited stays visited. -/
theorem visited_cons {p : Point} (h : Visited runs p) : Visited (r :: runs) p := by
  obtain ⟨runs', hsuffix, hvisits⟩ := h
  exact ⟨runs', hsuffix.trans (List.suffix_cons r runs), hvisits⟩

/-- A source is accepted before the latest run, or in it and without faults. -/
theorem accepted_cons_iff {a : Analysis} : Accepted (r :: runs) a ↔
    Accepted runs a ∨ ∃ s, after runs = some s ∧ a = s.analysis r.source ∧ a.faults = [] := by
  constructor
  · rintro ⟨r', runs', s, hsuffix, hs, rfl, hfaults⟩
    rcases List.suffix_cons_iff.mp hsuffix with heq | hsuffix
    · obtain ⟨rfl, rfl⟩ := List.cons.inj heq
      exact .inr ⟨s, hs, rfl, hfaults⟩
    · exact .inl ⟨r', runs', s, hsuffix, hs, rfl, hfaults⟩
  · rintro (⟨r', runs', s, hsuffix, hs, rfl, hfaults⟩ | ⟨s, hs, rfl, hfaults⟩)
    · exact ⟨r', runs', s, hsuffix.trans (List.suffix_cons r runs), hs, rfl, hfaults⟩
    · exact ⟨r, runs, s, List.suffix_refl _, hs, rfl, hfaults⟩

end Session

namespace Survey

variable {S S' : Survey} {m : Machine} {nest : Nest} {f : FrameId} {value : Value}

/-- More points and more places are known. -/
structure Le (S S' : Survey) : Prop where
  visited : ∀ p, S.visited p → S'.visited p
  place : ∀ p, S.place p → S'.place p

/-- A nest that is realized in one survey is realized in every greater one. -/
theorem Realizes.mono {s : Store} {globals : FrameId} (hle : S.Le S')
    (h : S.Realizes s globals f nest) : S'.Realizes s globals f nest := by
  induction nest generalizing f with
  | nil => exact h
  | cons r outer ih =>
    obtain ⟨⟨p, hvisited, hopens, hnext⟩, hbinds, parent, hparent, houter⟩ := h
    exact ⟨⟨p, hle.visited p hvisited, hopens, hnext⟩, hbinds, parent, hparent, ih houter⟩

/-- A value that is rooted in one survey is rooted in every greater one. -/
theorem Rooted.mono (hle : S.Le S') (h : S.Rooted m value) : S'.Rooted m value := by
  cases value with
  | function f =>
    obtain ⟨nest, hrealizes, hsettled, hplaces, hproper⟩ := h
    exact ⟨nest, hrealizes.mono hle, hsettled, fun p hp => hle.place p (hplaces p hp), hproper⟩
  | _ => trivial

/-- A program that is ready to run keeps to the agreement, to its end or to its error. -/
theorem Ready.run {n : Nat} {ss : List (Stmt RefId)} (h : S.Ready nest ⟨n, .run ss, m⟩) :
    S.Ends (fun _ _ => True) (runProgram n ss m) := by
  induction ss generalizing m nest with
  | nil => exact ⟨h.consistent, trivial⟩
  | cons s ss ih =>
    refine Ends.bind ((preserves S n).execute h.firstRun) fun hfirst _ _ => ?_
    exact ih (h.otherRun (preserves S n) hfirst)

end Survey

namespace Session

variable {runs : List Run} {r : Run} {s s' : Session}

/-- Each run adds to the survey of the runs before it. -/
theorem survey_le : (survey runs).Le (survey (r :: runs)) where
  visited _ := visited_cons
  place _ := fun ⟨a, haccepted, hp⟩ => ⟨a, accepted_cons_iff.mpr (.inl haccepted), hp⟩

/-- A known place is one of an earlier source or one of the latest. -/
theorem place_cons_iff {p : Place} (hs : after runs = some s) :
    (survey (r :: runs)).place p ↔ (survey runs).place p ∨
      (s.analysis r.source).faults = [] ∧ p ∈ placesOf (s.analysis r.source).program := by
  constructor
  · rintro ⟨a, haccepted, hp⟩
    rcases accepted_cons_iff.mp haccepted with hearlier | ⟨s', hs', rfl, hfaults⟩
    · exact .inl ⟨a, hearlier, hp⟩
    · obtain rfl := Option.some.inj (hs.symm.trans hs')
      exact .inr ⟨hfaults, hp⟩
  · rintro (⟨a, hearlier, hp⟩ | ⟨hfaults, hp⟩)
    · exact ⟨a, accepted_cons_iff.mpr (.inl hearlier), hp⟩
    · exact ⟨_, accepted_cons_iff.mpr (.inr ⟨s, hs, rfl, hfaults⟩), hp⟩

theorem store_opening (s : Session) (r : Run) : (s.opening r).store = s.machine.store := by
  dsimp only [opening, Machine.learn, withReadings]

theorem globals_opening (s : Session) (r : Run) : (s.opening r).globals = s.machine.globals := by
  dsimp only [opening, Machine.learn, withReadings]

theorem environment_opening (s : Session) (r : Run) :
    (s.opening r).environment = s.machine.environment := by
  dsimp only [opening, Machine.learn, withReadings]

/-- A run starts with the distances of its own source beside those of the session. -/
theorem distances_opening (s : Session) (r : Run) :
    (s.opening r).distances = s.machine.distances.insertMany
      (findingsOf (Stmt.numberAll s.next (statementsOf r.source)).1).distances := by
  rw [← findings_analysis]
  dsimp only [opening, Machine.learn, withReadings]

/-- When a run starts, every reference of every accepted source has its distance. -/
theorem Settled.getElem?_opening (h : Settled runs s) (hs : after runs = some s) {p : Place}
    (hp : (survey (r :: runs)).place p) {reference : RefId × Token}
    (hreference : reference ∈ p.expression.references) :
    (s.opening r).distances[reference.1]? = Scope.distance? p.nest.scopes reference.2 := by
  rw [distances_opening]
  rcases (place_cons_iff hs).mp hp with hearlier | ⟨-, hlatest⟩
  · rw [← h.consistent.distances p hearlier reference hreference]
    exact getElem?_learn_of_lt (.inl (h.known p hearlier reference hreference))
  · rw [program_analysis] at hlatest
    exact getElem?_learn h.unknown hlatest hreference

/-- When a run starts, the machine agrees with the scopes of all accepted sources. -/
theorem Settled.consistent_opening (h : Settled runs s) (hs : after runs = some s) :
    (survey (r :: runs)).Consistent (s.opening r) where
  globals_lt := by
    rw [store_opening, globals_opening]
    exact h.consistent.globals_lt
  parent?_globals := by
    rw [store_opening, globals_opening]
    exact h.consistent.parent?_globals
  rooted f name value hread := by
    rw [store_opening] at hread
    have hrooted := (h.consistent.rooted f name value hread).mono (survey_le (r := r))
    exact hrooted.of_eq (store_opening s r) (globals_opening s r)
  distances _ hp _ hreference := h.getElem?_opening hs hp hreference

/-- A run of an accepted source starts ready. -/
theorem Settled.ready (h : Settled runs s) (hs : after runs = some s)
    (haccepted : (s.analysis r.source).faults = []) :
    (survey (r :: runs)).Ready []
      ⟨r.fuel, .run (s.analysis r.source).program, s.opening r⟩ where
  visited := ⟨r :: runs, List.suffix_refl _, .first hs haccepted⟩
  consistent := h.consistent_opening hs
  placed := by
    have hrealizes : (survey (r :: runs)).Realizes (s.opening r).store (s.opening r).globals
        (s.opening r).environment [] := by
      rw [globals_opening, environment_opening]
      exact h.environment
    refine ⟨rfl, ⟨hrealizes, by simp⟩, fun p hp => ?_, properAll_program haccepted⟩
    exact (place_cons_iff hs).mpr (.inr ⟨haccepted, hp⟩)

/-- Reading a source draws identities and gives none back. -/
theorem next_le_analysis (s : Session) (source : String) : s.next ≤ (s.analysis source).next := by
  rw [next_analysis]
  exact (Stmt.numbered_numberAll s.next _).le

/-- Every reference of an accepted source has an identity that was drawn. -/
theorem Settled.known_cons (h : Settled runs s) (hs : after runs = some s) :
    ∀ p, (survey (r :: runs)).place p → ∀ reference ∈ p.expression.references,
      reference.1 < (s.analysis r.source).next := by
  intro p hp reference hreference
  rcases (place_cons_iff hs).mp hp with hearlier | ⟨-, hlatest⟩
  · exact Nat.lt_of_lt_of_le (h.known p hearlier reference hreference) (next_le_analysis s r.source)
  · rw [program_analysis] at hlatest
    rw [next_analysis]
    exact (bounds_of_place hlatest hreference).2

/-- A source that is not accepted changes nothing but the supply of identities. -/
theorem Settled.rejected (h : Settled runs s) (hs : after runs = some s)
    (hrejected : (s.analysis r.source).faults ≠ []) :
    Settled (r :: runs) { s.withReadings r.reading with next := (s.analysis r.source).next } where
  consistent := by
    refine ⟨h.consistent.globals_lt, h.consistent.parent?_globals, fun f name value hread => ?_,
      fun p hp reference hreference => ?_⟩
    · have hrooted := (h.consistent.rooted f name value hread).mono (survey_le (r := r))
      exact hrooted.of_eq rfl rfl
    · rcases (place_cons_iff hs).mp hp with hearlier | ⟨haccepted, -⟩
      · exact h.consistent.distances p hearlier reference hreference
      · exact absurd haccepted hrejected
  environment := h.environment
  unknown ref href := h.unknown ref (Nat.le_trans (next_le_analysis s r.source) href)
  known := h.known_cons hs

/-- Behind an accepted source the machine is back in the globals, whether or not there was an
    error. -/
theorem Settled.accepted (h : Settled runs s) (hs : after runs = some s)
    (haccepted : (s.analysis r.source).faults = []) {m : Machine}
    (hm : (runProgram r.fuel (s.analysis r.source).program).after (s.opening r) = m)
    (saw : Bool) : Settled (r :: runs) ⟨m, (s.analysis r.source).next, saw⟩ := by
  have hends := (h.ready hs haccepted).run
  have hevolves := evolves_runProgram r.fuel (s.analysis r.source).program (s.opening r)
  have hconsistent : (survey (r :: runs)).Consistent m := by
    unfold Step.after at hm
    cases hresult : runProgram r.fuel (s.analysis r.source).program (s.opening r) with
    | ok u m' =>
      rw [hresult] at hends hm
      exact hm ▸ hends.1
    | error stop m' =>
      rw [hresult] at hends hm
      exact hm ▸ hends
  rw [hm] at hevolves
  refine ⟨hconsistent, ?_, fun ref href => ?_, h.known_cons hs⟩
  · rw [hevolves.environment, hevolves.globals, environment_opening, globals_opening]
    exact h.environment
  · have hunknown := h.unknown ref (Nat.le_trans (next_le_analysis s r.source) href)
    rw [next_analysis] at href
    rw [hevolves.distances, distances_opening, getElem?_learn_of_lt (.inr href), hunknown]

/-- A source without faults is run. -/
theorem run?_of_accepted (h : (s.analysis r.source).faults = []) :
    (s.withReadings r.reading).run? r.fuel r.source =
      match runProgram r.fuel (s.analysis r.source).program (s.opening r) with
      | .ok _ m => some (⟨.success, m.output⟩, ⟨m, (s.analysis r.source).next, s.sawRuntimeError⟩)
      | .error (.error e) m =>
        some (⟨.runtimeError e, m.output⟩, ⟨m, (s.analysis r.source).next, true⟩)
      | .error .outOfFuel _ => none := by
  have hempty : (Analysis.ofSource s.next r.source).faults.isEmpty = true := by
    rw [List.isEmpty_iff]
    exact h
  exact if_pos hempty

/-- A source with faults is answered with these, and only its identities are used up. -/
theorem run?_of_rejected (h : (s.analysis r.source).faults ≠ []) :
    (s.withReadings r.reading).run? r.fuel r.source =
      some (⟨.staticFaults (s.analysis r.source).faults, ""⟩,
        { s.withReadings r.reading with next := (s.analysis r.source).next }) := by
  have hempty : ¬ (Analysis.ofSource s.next r.source).faults.isEmpty = true := by
    rw [List.isEmpty_iff]
    exact h
  exact if_neg hempty

theorem eq_clock_of_read?_start {reading : Nat → Float} {f : FrameId} {name : String}
    {value : Value} (h : (Machine.start reading).store.read? f name = some value) :
    value = .native .clock := by
  rcases Store.read?_define h with rfl | hempty
  · rfl
  · rw [Store.read?_push] at hempty
    split at hempty
    · simp [Frame.empty, Frame.get?] at hempty
    · simp [Store.read?, Store.frame?, Store.empty] at hempty

/-- A session that has run nothing is settled. -/
theorem settled_start (reading : Nat → Float) : Settled [] (.start reading) where
  consistent := by
    refine ⟨Nat.zero_lt_one, rfl, fun f name value hread => ?_, ?_⟩
    · rw [eq_clock_of_read?_start hread]
      trivial
    · rintro p ⟨a, ⟨r, runs, s, hsuffix, -⟩, -⟩
      simp at hsuffix
  environment := rfl
  unknown _ _ := Std.TreeMap.getElem?_emptyc
  known := by
    rintro p ⟨a, ⟨r, runs, s, hsuffix, -⟩, -⟩
    simp at hsuffix

/-- A further run leaves the machine as its program does, if its source is accepted, and as it was,
    but for the readings, if not. -/
theorem after_cons_cases (h : after (r :: runs) = some s') :
    ∃ s, after runs = some s ∧ s'.next = (s.analysis r.source).next ∧
      ((s.analysis r.source).faults = [] ∧
          s'.machine = (runProgram r.fuel (s.analysis r.source).program).after (s.opening r) ∨
        (s.analysis r.source).faults ≠ [] ∧
          s' = { s.withReadings r.reading with next := (s.analysis r.source).next }) := by
  obtain ⟨s, hs, hmap⟩ := Option.bind_eq_some_iff.mp h
  obtain ⟨⟨answer, s''⟩, hrun, rfl⟩ := Option.map_eq_some_iff.mp hmap
  by_cases haccepted : (s.analysis r.source).faults = []
  · rw [run?_of_accepted haccepted] at hrun
    unfold Step.after
    cases hresult : runProgram r.fuel (s.analysis r.source).program (s.opening r) with
    | ok u m =>
      rw [hresult] at hrun
      obtain ⟨-, rfl⟩ := Prod.mk.inj (Option.some.inj hrun)
      exact ⟨s, hs, rfl, .inl ⟨haccepted, by rw [hresult]⟩⟩
    | error stop m =>
      rw [hresult] at hrun
      cases stop with
      | outOfFuel => cases hrun
      | error e =>
        obtain ⟨-, rfl⟩ := Prod.mk.inj (Option.some.inj hrun)
        exact ⟨s, hs, rfl, .inl ⟨haccepted, by rw [hresult]⟩⟩
  · rw [run?_of_rejected haccepted] at hrun
    obtain ⟨-, rfl⟩ := Prod.mk.inj (Option.some.inj hrun)
    exact ⟨s, hs, rfl, .inr ⟨haccepted, rfl⟩⟩

/-- Sessions are settled between runs, whatever was run. -/
theorem settled_of_after (h : after runs = some s) : Settled runs s := by
  induction runs generalizing s with
  | nil =>
    obtain rfl := Option.some.inj h
    exact settled_start _
  | cons r runs ih =>
    obtain ⟨s₀, hs₀, hnext, ⟨haccepted, hm⟩ | ⟨hrejected, rfl⟩⟩ := after_cons_cases h
    · obtain ⟨machine, next, saw⟩ := s
      obtain rfl : next = _ := hnext
      exact (ih hs₀).accepted hs₀ haccepted hm.symm saw
    · exact (ih hs₀).rejected hs₀ hrejected

/-- Every point of a run is ready: frames and scopes agree there. -/
theorem Visits.ready {p : Point} (h : Visits runs p) : ∃ nest, (survey runs).Ready nest p := by
  induction h with
  | first hs haccepted => exact ⟨[], (settled_of_after hs).ready hs haccepted⟩
  | enters _ henters ih =>
    obtain ⟨nest, hready⟩ := ih
    exact hready.of_enters henters

end Session

end Lox
