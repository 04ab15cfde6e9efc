import Lox.Proofs.Session.Learning
import Lox.Proofs.Session.Sequence

/-!
Sessions that cannot be told apart. They may have used up different numbers of identities, for lines
that were not accepted; what they know about the references of the lines that were is the same.
-/

namespace Lox

section Same

/-! The same source in two sessions is found to be the same, but for identities. -/

variable {T : RefId → RefId → Prop} {items items' : List (RefId × Nat)} {table table' : Distances}
  {a a' : Analysis} {next next' : RefId}

/-- Tables that agree on facing references agree on them after learning the same. -/
theorem getElem?_insertMany_of_forall₂
    (hT : ∀ ⦃r r' q q'⦄, T r r' → T q q' → (r = q ↔ r' = q'))
    (hitems : List.Forall₂ (fun d d' => T d.1 d'.1 ∧ d'.2 = d.2) items items')
    (htables : ∀ r r' : Nat, T r r' → table'[r']? = table[r]?) {r r' : Nat} (hr : T r r') :
    (table'.insertMany items')[r']? = (table.insertMany items)[r]? := by
  induction hitems generalizing table table' with
  | nil => exact htables r r' hr
  | @cons d d' items items' hfirst _ ih =>
    rw [Std.TreeMap.insertMany_cons, Std.TreeMap.insertMany_cons]
    refine ih fun q q' hq => ?_
    rw [Std.TreeMap.getElem?_insert, Std.TreeMap.getElem?_insert, hfirst.2, htables q q' hq]
    simp only [compare_eq_iff_eq, hT hfirst.1 hq]

namespace Analysis

/-- These are found in the same text, and have identities of their own each. -/
structure Same (a : Analysis) (next next' : RefId) (a' : Analysis) : Prop where
  owns : a.Owns next
  owns' : a'.Owns next'
  textFaults : a'.textFaults = a.textFaults
  alike : Stmt.AlikeAll Eq (fun _ _ => True) a.program a'.program

/-- One source, read from two identities on, is the same but for these. -/
theorem same_ofSource (next next' : RefId) (source : String) :
    (ofSource next source).Same next next' (ofSource next' source) where
  owns := owns_ofSource next source
  owns' := owns_ofSource next' source
  textFaults := rfl
  alike := by
    have hsame := Stmt.alikeAll_self (S := fun _ _ => True) (fun _ => Eq.refl _)
      (Grammar.program (Tokens.ofString source).tokens).statements fun _ _ => trivial
    exact (hsame.number (T := fun _ _ => True) (fun _ _ => trivial) (Nat.le_refl _)).1

/-- The references at the same place. -/
def Facing (a a' : Analysis) (r r' : RefId) : Prop :=
  ∃ i, ∃ h : i < a.identities.length, ∃ h' : i < a'.identities.length,
    a.identities[i] = r ∧ a'.identities[i] = r'

theorem Facing.left_mem {r r' : RefId} (h : Facing a a' r r') : r ∈ a.identities := by
  obtain ⟨i, hi, -, rfl, -⟩ := h
  exact List.getElem_mem hi

theorem Facing.right_mem {r r' : RefId} (h : Facing a a' r r') : r' ∈ a'.identities := by
  obtain ⟨i, -, hi', -, rfl⟩ := h
  exact List.getElem_mem hi'

namespace Same

/-- The two programs are alike, each reference facing its counterpart. -/
theorem alike_facing (h : a.Same next next' a') :
    Stmt.AlikeAll Eq (Facing a a') a.program a'.program := by
  refine h.alike.pairs.relate _ fun p hp => ?_
  obtain ⟨i, hi, rfl⟩ := List.mem_iff_getElem.mp hp
  rw [List.length_zip, Nat.lt_min] at hi
  refine ⟨i, by simpa [identities] using hi.1, by simpa [identities] using hi.2, ?_, ?_⟩
  · simp [identities]
  · simp [identities]

/-- Facing references are equal on both sides or on neither. -/
theorem facing_iff (h : a.Same next next' a') {r r' q q' : RefId} (hr : Facing a a' r r')
    (hq : Facing a a' q q') : r = q ↔ r' = q' := by
  obtain ⟨i, hi, hi', rfl, rfl⟩ := hr
  obtain ⟨j, hj, hj', rfl, rfl⟩ := hq
  rw [h.owns.nodup.getElem_inj_iff, h.owns'.nodup.getElem_inj_iff]

/-- Scoping finds the same for facing references. -/
theorem findings (h : a.Same next next' a') :
    a.findings.Alike Eq (Facing a a') a'.findings := by
  rw [h.owns.findings, h.owns'.findings]
  exact findingsOf_alike h.alike_facing fun _ _ => .of_eq

/-- Both readings have the same faults. -/
theorem faults_eq (h : a.Same next next' a') : a'.faults = a.faults := by
  rw [faults, faults, h.textFaults, h.findings.errors_eq fun _ _ heq => heq.symm]

/-- The table has the same entry for the references at the same place. -/
theorem getElem?_insertMany (h : a.Same next next' a')
    (hnew : ∀ ref : Nat, next ≤ ref → table[ref]? = none)
    (hnew' : ∀ ref : Nat, next' ≤ ref → table'[ref]? = none) {r r' : Nat}
    (hr : Facing a a' r r') :
    (table'.insertMany a'.findings.distances)[r']? =
      (table.insertMany a.findings.distances)[r]? := by
  refine getElem?_insertMany_of_forall₂ (fun _ _ _ _ => h.facing_iff) h.findings.distances ?_ hr
  rintro q q' hq
  rw [hnew q (h.owns.bounds hq.left_mem).1, hnew' q' (h.owns'.bounds hq.right_mem).1]

end Same

end Analysis

end Same

/-- Known references with the same entry correspond, and all tokens are the same. -/
def agreeing (known known' : RefId) (table table' : Distances) : Parallel where
  token := Eq
  sameText _ _ := .of_eq
  named := Eq
  refs r r' entry := (r < known ∧ table[r]? = entry) ∧ r' < known' ∧ table'[r']? = entry
  before := ""

namespace Session

/-- The machine of the session, with nothing printed. -/
def quiet (s : Session) (reading : Nat → Float) : Machine :=
  { (s.withReadings reading).machine with output := "" }

/-- Sessions that have the same variables, with the same values. -/
structure Twin (s t : Session) : Prop where
  sawRuntimeError : t.sawRuntimeError = s.sawRuntimeError
  unknown : ∀ ref : Nat, s.next ≤ ref → s.machine.distances[ref]? = none
  unknown' : ∀ ref : Nat, t.next ≤ ref → t.machine.distances[ref]? = none
  machines : ∃ w, ∀ reading,
    (agreeing s.next t.next s.machine.distances t.machine.distances).comparison.Machines w []
      (s.quiet reading) (t.quiet reading)

variable {s t : Session}

/-- A session is its own twin at the start. -/
theorem twin_start (reading : Nat → Float) : Twin (start reading) (start reading) where
  sawRuntimeError := rfl
  unknown _ _ := Std.TreeMap.getElem?_emptyc
  unknown' _ _ := Std.TreeMap.getElem?_emptyc
  machines := by
    refine ⟨_, fun reading' => Comparison.machines_start reading' ?_ rfl⟩
    rintro r r' entry _ ⟨hrefs, rfl⟩
    exact ⟨hrefs.1.2, hrefs.2.2⟩

/-- Identities that are used up for nothing make no difference. -/
theorem Twin.advance (h : Twin s t) {next next' : RefId} (hnext : s.next ≤ next)
    (hnext' : t.next ≤ next') (reading reading' : Nat → Float) :
    Twin { s.withReadings reading with next } { t.withReadings reading' with next := next' } where
  sawRuntimeError := h.sawRuntimeError
  unknown ref href := h.unknown ref (Nat.le_trans hnext href)
  unknown' ref href := h.unknown' ref (Nat.le_trans hnext' href)
  machines := by
    obtain ⟨w, hmachines⟩ := h.machines
    refine ⟨w, fun reading'' => ?_⟩
    have hm := hmachines reading''
    have hle : (agreeing s.next t.next s.machine.distances t.machine.distances).Le
        (agreeing next next' s.machine.distances t.machine.distances) := by
      refine ⟨fun _ _ h => h, fun _ _ h => h, fun r r' entry hrefs => ?_⟩
      obtain ⟨⟨hr, hentry⟩, hr', hentry'⟩ := hrefs
      exact ⟨⟨Nat.lt_of_lt_of_le hr hnext, hentry⟩, Nat.lt_of_lt_of_le hr' hnext', hentry'⟩
    refine ⟨Parallel.stores_le hm.store hle, hm.here, hm.callDepth, ?_, hm.functions, hm.clock,
      hm.output⟩
    rintro r r' entry _ ⟨hrefs, rfl⟩
    exact ⟨hrefs.1.2, hrefs.2.2⟩

section Begun

variable {a a' : Analysis}

/-- How the runs of a source of which this is known correspond. -/
def together (s t : Session) (a a' : Analysis) : Parallel :=
  agreeing a.next a'.next (s.begun a).distances (t.begun a').distances

/-- The programs that twins read are related. -/
theorem Twin.statements (h : Twin s t) (hsame : a.Same s.next t.next a') :
    (together s t a a').StatementsAll [] a.program a'.program := by
  refine Parallel.statementsAll_of_alike ?_ (by simp) fun _ _ h => h
  refine hsame.alike_facing.mono (fun _ _ h => h) fun ref ref' href => ?_
  refine ⟨(s.begun a).distances[ref]?, ⟨?_, rfl⟩, ?_, ?_⟩
  · exact (hsame.owns.bounds href.left_mem).2
  · exact (hsame.owns'.bounds href.right_mem).2
  · exact hsame.getElem?_insertMany h.unknown h.unknown' href

/-- Twins that begin to run the same source have related machines. -/
theorem Twin.machines_begun (h : Twin s t) (hsame : a.Same s.next t.next a')
    (reading : Nat → Float) : ∃ w, (together s t a a').comparison.Machines w []
      ((s.withReadings reading).begun a) ((t.withReadings reading).begun a') := by
  obtain ⟨w, hmachines⟩ := h.machines
  have hm := hmachines reading
  refine ⟨w, Parallel.stores_le hm.store ⟨fun _ _ h => h, fun _ _ h => h, ?_⟩, hm.here,
    hm.callDepth, ?_, hm.functions, hm.clock, hm.output⟩
  · rintro ref ref' entry ⟨⟨href, hentry⟩, href', hentry'⟩
    refine ⟨⟨?_, ?_⟩, ?_, ?_⟩
    · exact Nat.lt_of_lt_of_le href hsame.owns.le
    · exact (hsame.owns.getElem?_insertMany (.inl href)).trans hentry
    · exact Nat.lt_of_lt_of_le href' hsame.owns'.le
    · exact (hsame.owns'.getElem?_insertMany (.inl href')).trans hentry'
  · rintro ref ref' entry _ ⟨hrefs, rfl⟩
    exact ⟨hrefs.1.2, hrefs.2.2⟩

/-- What is still to be handed out behind a source is not known behind it either. -/
theorem unknown_of_begun {m : Machine} (hunknown : ∀ ref : Nat, s.next ≤ ref →
    s.machine.distances[ref]? = none) (howns : a.Owns s.next)
    (hdistances : m.distances = (s.begun a).distances) :
    ∀ ref : Nat, a.next ≤ ref → m.distances[ref]? = none := by
  intro ref href
  rw [hdistances, ← hunknown ref (howns.le.trans href)]
  exact howns.getElem?_insertMany (.inr href)

/-- Whatever the run of a source leaves behind, the sessions still cannot be told apart. -/
theorem Twin.after_run (h : Twin s t) (hsame : a.Same s.next t.next a')
    {w : Pairing Naming} {m m' : Machine} (hm : (together s t a a').comparison.Machines w [] m m')
    (hdistances : m.distances = (s.begun a).distances)
    (hdistances' : m'.distances = (t.begun a').distances) {saw saw' : Bool} (hsaw : saw' = saw) :
    Twin ⟨m, a.next, saw⟩ ⟨m', a'.next, saw'⟩ where
  sawRuntimeError := hsaw
  unknown := unknown_of_begun h.unknown hsame.owns hdistances
  unknown' := unknown_of_begun h.unknown' hsame.owns' hdistances'
  machines := by
    refine ⟨w, fun reading => ?_⟩
    rw [hdistances, hdistances']
    refine ⟨hm.store, hm.here, hm.callDepth, hm.distances, hm.functions, ?_, rfl⟩
    exact congrArg (fun clock => { clock with reading }) hm.clock

/-- Sessions that cannot be told apart give the same answer to the same source, or none. -/
theorem Twin.runAs? (h : Twin s t) (hsame : a.Same s.next t.next a') (reading : Nat → Float)
    (fuel : Nat) : Option.Rel (fun p q => q.1 = p.1 ∧ Twin p.2 q.2)
      ((s.withReadings reading).runAs? fuel a) ((t.withReadings reading).runAs? fuel a') := by
  have hfaults := hsame.faults_eq
  by_cases haccepted : a.faults = []
  · rw [runAs?_of_accepted haccepted, runAs?_of_accepted (hfaults.trans haccepted)]
    obtain ⟨w, hmachines⟩ := h.machines_begun hsame reading
    have hresults := Parallel.runProgram_steps (h.statements hsame) fuel _ _ hmachines
    have hevolves := evolves_runProgram fuel a.program ((s.withReadings reading).begun a)
    have hevolves' := evolves_runProgram fuel a'.program ((t.withReadings reading).begun a')
    unfold Step.after at hevolves hevolves'
    generalize runProgram fuel _ ((s.withReadings reading).begun a) = result at *
    generalize runProgram fuel _ ((t.withReadings reading).begun a') = result' at *
    cases hresults with
    | @ok _ _ _ _ m m' _ _ hm =>
      have houtput : m'.output = m.output := hm.output.trans (String.empty_append ..)
      refine .some ⟨by rw [houtput], ?_⟩
      exact h.after_run hsame hm hevolves.distances hevolves'.distances h.sawRuntimeError
    | @error _ _ _ _ m m' _ herror hm =>
      have houtput : m'.output = m.output := hm.output.trans (String.empty_append ..)
      have htwin := h.after_run hsame hm hevolves.distances hevolves'.distances (Eq.refl true)
      cases herror with
      | same htoken =>
        obtain rfl := htoken
        exact .some ⟨by rw [houtput], htwin⟩
      | undefined hname =>
        obtain rfl := hname
        exact .some ⟨by rw [houtput], htwin⟩
    | outOfFuel => exact .none
  · rw [runAs?_of_rejected haccepted, runAs?_of_rejected (hfaults ▸ haccepted), hfaults]
    exact .some ⟨rfl, h.advance hsame.owns.le hsame.owns'.le reading reading⟩

end Begun

/-- Twins give the same answer to the same line, or none. -/
theorem Twin.run? (h : Twin s t) (r : Run) : Option.Rel (fun p q => q.1 = p.1 ∧ Twin p.2 q.2)
    ((s.withReadings r.reading).run? r.fuel r.source)
    ((t.withReadings r.reading).run? r.fuel r.source) :=
  h.runAs? (Analysis.same_ofSource s.next t.next r.source) r.reading r.fuel

end Session

end Lox
