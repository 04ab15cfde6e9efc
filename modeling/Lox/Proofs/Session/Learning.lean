import Mathlib.Order.Interval.Finset.Nat
import Mathlib.Order.Interval.Multiset
import Mathlib.Tactic
import Lox.Proofs.Session.History

/-!
What a source adds to a session. Its references have identities of their own, so that what scoping
found out about them comes beside what the table of distances holds already.
-/

namespace Lox

namespace Analysis

def identities (a : Analysis) : List RefId :=
  (Stmt.referencesAll a.program).map Prod.fst

/-- The references of the source have identities of their own, from those that were left. -/
structure Owns (first : Nat) (a : Analysis) : Prop where
  le : first ≤ a.next
  identities : ↑a.identities ≤ Multiset.Ico first a.next
  findings : a.findings = findingsOf a.program

/-- The table behind a source: that of before if the source is not accepted. -/
def learned (a : Analysis) (table : Distances) : Distances :=
  if a.faults.isEmpty then table.insertMany a.findings.distances else table

variable {a : Analysis} {first : Nat} {table : Distances} {ref : Nat}

/-- The identities of a source are its own. -/
theorem owns_ofSource (next : Nat) (source : String) : (ofSource next source).Owns next := by
  have hnumbered := Stmt.numbered_numberAll next
    (Grammar.program (Tokens.ofString source).tokens).statements
  refine ⟨hnumbered.le, ?_, rfl⟩
  exact le_of_eq (congrArg Multiset.ofList hnumbered.identities)

namespace Owns

/-- No identity belongs to two references of a source. -/
theorem nodup (h : a.Owns first) : a.identities.Nodup :=
  Multiset.coe_nodup.mp (Multiset.nodup_of_le h.identities Multiset.nodup_Ico)

theorem bounds (h : a.Owns first) (href : ref ∈ a.identities) : first ≤ ref ∧ ref < a.next :=
  Multiset.mem_Ico.mp (Multiset.mem_of_le h.identities href)

/-- Scoping makes at most one entry for each reference, and none for others. -/
theorem sublist (h : a.Owns first) :
    (a.findings.distances.map Prod.fst).Sublist a.identities := by
  rw [h.findings, distances_findingsOf, Analysis.identities, ← map_fst_scopedReferences]
  exact map_fst_entries_sublist

/-- The table is left as it is for references that are not among those of the source. -/
theorem getElem?_insertMany (h : a.Owns first) (href : ref < first ∨ a.next ≤ ref) :
    (table.insertMany a.findings.distances)[ref]? = table[ref]? := by
  have hother : ref ∉ a.identities := fun hmem =>
    href.elim (Nat.not_lt.mpr (h.bounds hmem).1) (Nat.not_le.mpr (h.bounds hmem).2)
  rw [Analysis.identities, ← map_fst_scopedReferences] at hother
  rw [h.findings, distances_findingsOf]
  exact getElem?_insertMany_of_notMem hother

/-- Learning a source changes no entry of another. -/
theorem learned_of_other (h : a.Owns first) (href : ref < first ∨ a.next ≤ ref) :
    (a.learned table)[ref]? = table[ref]? := by
  unfold learned
  split
  · exact h.getElem?_insertMany href
  · rfl

/-- A reference that is new to the table has the entry that scoping made for it, if any. -/
theorem learned_of_mem {d : Nat} (h : a.Owns first) (href : ref ∈ a.identities)
    (hnew : table[ref]? = none) :
    (a.learned table)[ref]? = some d ↔ a.faults = [] ∧ (ref, d) ∈ a.findings.distances := by
  have hnodup := h.nodup
  rw [Analysis.identities, ← map_fst_scopedReferences] at href hnodup
  obtain ⟨⟨_, context⟩, hmem, rfl⟩ := List.mem_map.mp href
  rw [← List.isEmpty_iff]
  unfold learned
  split
  · rename_i haccepted
    rw [h.findings, distances_findingsOf, getElem?_insertMany_of_mem hnodup hmem hnew,
      mem_entries_iff hnodup hmem]
    exact (and_iff_right haccepted).symm
  · rename_i hrejected
    rw [hnew]
    exact iff_of_false (Option.some_ne_none d).symm fun h => hrejected h.1

end Owns

end Analysis

namespace Session

/-- The machine on which a source of which this is known begins to run. -/
def begun (s : Session) (a : Analysis) : Machine :=
  { s.machine with output := "" }.learn a.findings

/-- Runs one source of which this is known. -/
def runAs? (fuel : Nat) (s : Session) (a : Analysis) : Option (Answer × Session) :=
  if a.faults.isEmpty then
    match runProgram fuel a.program (s.begun a) with
    | .ok _ machine => some (⟨.success, machine.output⟩, { s with machine, next := a.next })
    | .error (.error e) machine =>
      some (⟨.runtimeError e, machine.output⟩, ⟨machine, a.next, true⟩)
    | .error .outOfFuel _ => none
  else
    some (⟨.staticFaults a.faults, ""⟩, { s with next := a.next })

/-- To run a source is to run it as it is analysed. -/
theorem run?_eq_runAs? (fuel : Nat) (s : Session) (source : String) :
    s.run? fuel source = s.runAs? fuel (.ofSource s.next source) := rfl

variable {s s' : Session} {fuel : Nat} {a : Analysis}

/-- A source without faults is run. -/
theorem runAs?_of_accepted (h : a.faults = []) :
    s.runAs? fuel a =
      match runProgram fuel a.program (s.begun a) with
      | .ok _ m => some (⟨.success, m.output⟩, ⟨m, a.next, s.sawRuntimeError⟩)
      | .error (.error e) m => some (⟨.runtimeError e, m.output⟩, ⟨m, a.next, true⟩)
      | .error .outOfFuel _ => none :=
  if_pos (List.isEmpty_iff.mpr h)

/-- A source with faults is answered with these. -/
theorem runAs?_of_rejected (h : a.faults ≠ []) :
    s.runAs? fuel a = some (⟨.staticFaults a.faults, ""⟩, { s with next := a.next }) :=
  if_neg fun hempty => h (List.isEmpty_iff.mp hempty)

theorem runAs?_some {answer : Answer}
    (h : s.runAs? fuel a = some (answer, s')) :
    s'.next = a.next ∧ s'.machine.distances = a.learned s.machine.distances := by
  by_cases haccepted : a.faults = []
  · have hevolves := evolves_runProgram fuel a.program (s.begun a)
    have hlearned : a.learned s.machine.distances = (s.begun a).distances :=
      if_pos (List.isEmpty_iff.mpr haccepted)
    rw [runAs?_of_accepted haccepted] at h
    unfold Step.after at hevolves
    cases hresult : runProgram fuel a.program (s.begun a) with
    | ok u m =>
      rw [hresult] at h hevolves
      obtain ⟨-, rfl⟩ := Prod.mk.inj (Option.some.inj h)
      exact ⟨rfl, hevolves.distances.trans hlearned.symm⟩
    | error stop m =>
      rw [hresult] at h hevolves
      cases stop with
      | outOfFuel => cases h
      | error e =>
        obtain ⟨-, rfl⟩ := Prod.mk.inj (Option.some.inj h)
        exact ⟨rfl, hevolves.distances.trans hlearned.symm⟩
  · rw [runAs?_of_rejected haccepted] at h
    obtain ⟨-, rfl⟩ := Prod.mk.inj (Option.some.inj h)
    exact ⟨rfl, (if_neg fun hempty => haccepted (List.isEmpty_iff.mp hempty)).symm⟩

end Session

end Lox
