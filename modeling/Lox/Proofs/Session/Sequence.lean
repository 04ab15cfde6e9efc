import Lox.Proofs.Execution.Parallel
import Lox.Proofs.Session.Grounding

/-!
Programs that are run one by one in a session, and the same programs run at once, one behind the
other. The run of the whole goes through the runs of the session: what it knows besides at the end
of each are the distances of references that are still to come.
-/

namespace Lox

/-- A machine on which nothing has run corresponds to itself. -/
theorem Comparison.machines_start {ι : Type} {C : Comparison ι} (reading : Nat → Float)
    {table table' : Distances}
    (hdistances : ∀ {r r' : Nat} {entry entry'}, C.refs r r' entry entry' →
      table[r]? = entry ∧ table'[r']? = entry')
    (hbefore : C.before = "") :
    C.Machines (.same 1) [] { Machine.start reading with distances := table }
      { Machine.start reading with distances := table' } := by
  have hstart : Session.after [] = some (Session.start fun _ => 0) := rfl
  have hsound : (Machine.start reading).Sound 0 := { Session.sound_of_after hstart with }
  refine machines_same hsound (fun f name k hread => ?_) hdistances hbefore
  cases Session.eq_clock_of_read?_start hread

namespace Session

/-- The machine of the session, about to run a program. -/
def loaded (s : Session) (ss : List (Stmt Unit)) : Machine :=
  { s.machine with output := "" }.learn (findingsOf (Stmt.numberAll s.next ss).1)

/-- Runs a program that was read without faults. -/
def perform? (fuel : Nat) (s : Session) (ss : List (Stmt Unit)) : Option (Answer × Session) :=
  match runProgram fuel (Stmt.numberAll s.next ss).1 (s.loaded ss) with
  | .ok _ m => some (⟨.success, m.output⟩, ⟨m, (Stmt.numberAll s.next ss).2, s.sawRuntimeError⟩)
  | .error (.error e) m =>
    some (⟨.runtimeError e, m.output⟩, ⟨m, (Stmt.numberAll s.next ss).2, true⟩)
  | .error .outOfFuel _ => none

/-- What such a program prints, whether or not the fuel suffices for an answer. -/
def printout (fuel : Nat) (s : Session) (ss : List (Stmt Unit)) : String :=
  ((runProgram fuel (Stmt.numberAll s.next ss).1).after (s.loaded ss)).output

/-- If there is an answer, it has all that is printed. -/
theorem output_of_perform? {fuel : Nat} {s s' : Session} {ss : List (Stmt Unit)} {answer : Answer}
    (h : s.perform? fuel ss = some (answer, s')) : answer.output = s.printout fuel ss := by
  unfold perform? at h
  unfold printout Step.after
  generalize runProgram fuel (Stmt.numberAll s.next ss).1 (s.loaded ss) = result at h ⊢
  cases result with
  | ok _ m =>
    cases h
    rfl
  | error stop m =>
    cases stop with
    | error e =>
      cases h
      rfl
    | outOfFuel => cases h

/-- A source without faults is run as the program that is read from it. -/
theorem run?_eq_perform? {s : Session} {source : String} (h : (s.analysis source).faults = [])
    (fuel : Nat) :
    s.run? fuel source = s.perform? fuel (statementsOf source) :=
  run?_of_accepted (r := ⟨s.machine.clock.reading, fuel, source⟩) h

/-- The answers to programs that are run one by one, up to the first that ends with an error. -/
def performAll? (fuel : Nat) (s : Session) : List (List (Stmt Unit)) → Option (List Answer)
  | [] => some []
  | ss :: programs =>
    match s.perform? fuel ss with
    | none => none
    | some (⟨.success, output⟩, s') => (s'.performAll? fuel programs).map (⟨.success, output⟩ :: ·)
    | some (answer, _) => some [answer]

/-- How the last of these answers ended. -/
def lastOutcome (answers : List Answer) : Outcome :=
  (answers.getLast?.map (·.outcome)).getD .success

/-- What is known of two tokens: how they are related in one of the first `k` programs. -/
def Upto (rel : Nat → Token → Token → Prop) (k : Nat) (t t' : Token) : Prop :=
  ∃ i < k, rel i t t'

/-- Programs from the `k`-th on, and programs alike them one behind the other. -/
inductive Joined (rel : Nat → Token → Token → Prop) :
    Nat → List (List (Stmt Unit)) → List (Stmt Unit) → Prop
  | nil {k : Nat} : Joined rel k [] []
  | cons {k : Nat} {ss ss' left : List (Stmt Unit)} {programs : List (List (Stmt Unit))}
      (h : Stmt.AlikeAll (Upto rel (k + 1)) (fun _ _ => True) ss ss')
      (hrest : Joined rel (k + 1) programs left) : Joined rel k (ss :: programs) (ss' ++ left)

/-- What is left of the run of the whole ends as the session does that runs what is left of its
    programs, of which these have the answers. -/
inductive Concludes (rel : Nat → Token → Token → Prop) (k : Nat) (printed : String) :
    Option (List Answer) → EStateM.Result Stop Machine Unit → Prop
  | success {answers : List Answer} {m : Machine} (hlast : lastOutcome answers = .success)
      (houtput : m.output = printed ++ String.join (answers.map (·.output))) :
      Concludes rel k printed (some answers) (.ok () m)
  | error {answers : List Answer} {m : Machine} {t t' : Token} {problem : RuntimeProblem}
      (hlast : lastOutcome answers = .runtimeError ⟨t, problem⟩)
      (htoken : Upto rel (k + answers.length) t t')
      (houtput : m.output = printed ++ String.join (answers.map (·.output))) :
      Concludes rel k printed (some answers) (.error (.error ⟨t', problem⟩) m)
  | outOfFuel {m : Machine} : Concludes rel k printed none (.error .outOfFuel m)

section Concludes

variable {rel : Nat → Token → Token → Prop} {k : Nat} {printed output : String} {t t' : Token}

/-- Tokens that face each other in some parts do so in more. -/
theorem Upto.mono {l : Nat} (h : Upto rel k t t') (hle : k ≤ l) : Upto rel l t t' := by
  obtain ⟨i, hi, hrel⟩ := h
  exact ⟨i, Nat.lt_of_lt_of_le hi hle, hrel⟩

theorem lastOutcome_cons (answers : List Answer) :
    lastOutcome (⟨.success, output⟩ :: answers) = lastOutcome answers := by
  cases answers with
  | nil => rfl
  | cons answer answers => rw [lastOutcome, List.getLast?_cons_cons, lastOutcome]

/-- A first answer may be put in front of the answers of a conclusion. -/
theorem Concludes.cons {answers : Option (List Answer)} {result : EStateM.Result Stop Machine Unit}
    (h : Concludes rel (k + 1) (printed ++ output) answers result) :
    Concludes rel k printed (answers.map (⟨.success, output⟩ :: ·)) result := by
  cases h with
  | success hlast houtput =>
    refine .success ((lastOutcome_cons _).trans hlast) ?_
    rw [houtput, List.map_cons, String.join_cons, String.append_assoc]
  | error hlast htoken houtput =>
    refine .error ((lastOutcome_cons _).trans hlast) (htoken.mono ?_) ?_
    · rw [List.length_cons]
      omega
    · rw [houtput, List.map_cons, String.join_cons, String.append_assoc]
  | outOfFuel => exact .outOfFuel

theorem Concludes.of_error {answers : Option (List Answer)} {problem : RuntimeProblem} {m : Machine}
    (h : Concludes rel k printed answers (.error (.error ⟨t', problem⟩) m)) :
    ∃ answers' t, answers = some answers' ∧ lastOutcome answers' = .runtimeError ⟨t, problem⟩ ∧
      Upto rel (k + answers'.length) t t' := by
  cases h with
  | error hlast htoken houtput => exact ⟨_, _, rfl, hlast, htoken⟩

/-- Where the answers end with an error, the run of the whole ends with it. -/
theorem Concludes.exists_error {answers : List Answer} {problem : RuntimeProblem}
    {result : EStateM.Result Stop Machine Unit}
    (h : Concludes rel k printed (some answers) result)
    (hlast : lastOutcome answers = .runtimeError ⟨t, problem⟩) :
    ∃ t' m, result = .error (.error ⟨t', problem⟩) m ∧ Upto rel (k + answers.length) t t' := by
  cases h with
  | success hsuccess =>
    rw [hsuccess] at hlast
    cases hlast
  | error hlast' htoken houtput =>
    rw [hlast'] at hlast
    cases hlast
    exact ⟨_, _, rfl, htoken⟩

end Concludes

section Abreast

variable {rel : Nat → Token → Token → Prop} {k : Nat} {s : Session} {m : Machine}
  {ss ss' left : List (Stmt Unit)} {programs : List (List (Stmt Unit))}

/-- How the two runs correspond once `k` programs are done, where `table` is what the run of the
    whole knows. -/
def parallel (hrel : ∀ i t t', rel i t t' → t.SameText t') (k : Nat) (known : RefId)
    (table : Distances) (printed : String) : Parallel where
  token := Upto rel k
  sameText := fun _ _ ⟨i, _, h⟩ => hrel i _ _ h
  named := Upto rel k
  refs r r' entry := r' = r ∧ r < known ∧ table[r]? = entry
  before := printed

/-- The run of the whole is where the session is between two of its runs: its machine corresponds to
    that of the session, and knows the distances of what is left of its program. -/
structure Abreast (hrel : ∀ i t t', rel i t t' → t.SameText t') (k : Nat)
    (left : List (Stmt Unit)) (s : Session) (m : Machine) : Prop where
  machines : ∃ w, (parallel hrel k s.next m.distances m.output).comparison.Machines w []
    { s.machine with output := "" } m
  distances : m.distances = s.machine.distances.insertMany
    (findingsOf (Stmt.numberAll s.next left).1).distances

variable {hrel : ∀ i t t', rel i t t' → t.SameText t'}

/-- Programs one behind the other are run one after the other. -/
theorem runProgram_append (fuel : Nat) (ss ss' : List (Stmt RefId)) :
    runProgram fuel (ss ++ ss') = runProgram fuel ss >>= fun _ => runProgram fuel ss' := by
  induction ss with
  | nil => rfl
  | cons s ss ih =>
    rw [List.cons_append, runProgram, runProgram, ih]
    simp only [bind_assoc]

/-- Two programs that are alike and numbered alike. -/
theorem alike_numberAll {R : Token → Token → Prop} (h : Stmt.AlikeAll R (fun _ _ => True) ss ss')
    (next : RefId) :
    Stmt.AlikeAll R (fun r r' => r' = r ∧ r < (Stmt.numberAll next ss).2)
        (Stmt.numberAll next ss).1 (Stmt.numberAll next ss').1 ∧
      (Stmt.numberAll next ss').2 = (Stmt.numberAll next ss).2 := by
  have hpaired : Paired (fun r r' => r' = r ∧ r < (Stmt.numberAll next ss).2)
      (Stmt.numberAll next ss).2 next next := fun _ hlt => ⟨rfl, hlt⟩
  obtain ⟨hnumbered, n, hn, hn'⟩ := h.number hpaired (Nat.le_refl _)
  exact ⟨hnumbered, hn'.trans hn.symm⟩

/-- Programs that differ in the places of their tokens have the same distances. -/
theorem distances_of_alike {R : Token → Token → Prop}
    (h : Stmt.AlikeAll R (fun _ _ => True) ss ss') (hR : ∀ t t', R t t' → t.SameText t')
    (next : RefId) : (findingsOf (Stmt.numberAll next ss').1).distances =
      (findingsOf (Stmt.numberAll next ss).1).distances :=
  (findingsOf_alike (alike_numberAll h next).1 hR).distances_eq fun _ _ href => href.1

/-- Programs that are alike correspond in the globals. -/
theorem statements_numberAll (h : Stmt.AlikeAll (Upto rel k) (fun _ _ => True) ss ss')
    (next : RefId) (table : Distances) (printed : String) :
    (parallel hrel k (Stmt.numberAll next ss).2 table printed).StatementsAll []
      (Stmt.numberAll next ss).1 (Stmt.numberAll next ss').1 := by
  refine Parallel.statementsAll_of_alike ?_ (by simp) fun _ _ h => h
  refine (alike_numberAll h next).1.mono (fun _ _ h => h) fun r r' hr => ?_
  exact ⟨table[r]?, hr.1, hr.2, rfl⟩

/-- The whole knows what the session knows, and the distances of the programs that are left. -/
theorem Abreast.distances_loaded (h : Abreast hrel k (ss' ++ left) s m)
    (halike : Stmt.AlikeAll (Upto rel (k + 1)) (fun _ _ => True) ss ss') :
    m.distances = (s.loaded ss).distances.insertMany
      (findingsOf (Stmt.numberAll (Stmt.numberAll s.next ss).2 left).1).distances := by
  have hnext := (alike_numberAll halike s.next).2
  have hfindings := distances_of_alike halike (fun _ _ ⟨i, _, h⟩ => hrel i _ _ h) s.next
  rw [h.distances, Stmt.numberAll_append, findingsOf_append, Findings.distances_append,
    Std.TreeMap.insertMany_append, hnext, hfindings]
  rfl

/-- The next program of the session runs beside its part of the whole. -/
theorem Abreast.machines_loaded (h : Abreast hrel k (ss' ++ left) s m)
    (halike : Stmt.AlikeAll (Upto rel (k + 1)) (fun _ _ => True) ss ss') :
    ∃ w, (parallel hrel (k + 1) (Stmt.numberAll s.next ss).2 m.distances
      m.output).comparison.Machines w [] (s.loaded ss) m := by
  obtain ⟨w, hmachines⟩ := h.machines
  refine ⟨w, Parallel.stores_le hmachines.store ?_, hmachines.here, hmachines.callDepth, ?_,
    hmachines.functions, hmachines.clock, hmachines.output⟩
  · have hmono : ∀ t t', Upto rel k t t' → Upto rel (k + 1) t t' :=
      fun _ _ h => h.mono (Nat.le_succ k)
    refine ⟨hmono, hmono, fun r r' entry hrefs => ?_⟩
    exact ⟨hrefs.1, Nat.lt_of_lt_of_le hrefs.2.1 (Stmt.numbered_numberAll s.next ss).le, hrefs.2.2⟩
  · rintro r _ entry _ ⟨⟨rfl, hlt, hentry⟩, rfl⟩
    refine ⟨?_, hentry⟩
    rw [← hentry, h.distances_loaded halike]
    exact (getElem?_learn_of_lt (.inl hlt)).symm

/-- The run of the whole goes through the runs of the session. -/
theorem Joined.concludes (h : Joined rel k programs left) (habreast : Abreast hrel k left s m)
    (fuel : Nat) :
    Concludes rel k m.output (s.performAll? fuel programs)
      (runProgram fuel (Stmt.numberAll s.next left).1 m) := by
  induction h generalizing s m with
  | nil => exact .success rfl (by simp [String.join_nil])
  | @cons k ss ss' left programs halike _ ih =>
    have hnext := (alike_numberAll halike s.next).2
    obtain ⟨w, hmachines⟩ := habreast.machines_loaded halike
    have hprograms :
        (parallel hrel (k + 1) (Stmt.numberAll s.next ss).2 m.distances m.output).StatementsAll []
          (Stmt.numberAll s.next ss).1 (Stmt.numberAll s.next ss').1 :=
      statements_numberAll halike s.next m.distances m.output
    have hresults := Parallel.runProgram_steps hprograms fuel _ _ hmachines
    rw [Stmt.numberAll_append, runProgram_append, Step.bind_apply, hnext, performAll?, perform?]
    generalize hfirst : runProgram fuel (Stmt.numberAll s.next ss).1 _ = result at hresults ⊢
    generalize hfirst' : runProgram fuel (Stmt.numberAll s.next ss').1 m = result' at hresults ⊢
    cases hresults with
    | @ok _ w' _ _ m₁ m₁' _ _ hm =>
      have hevolves := (evolves_runProgram _ _).of_ok hfirst
      have hevolves' := (evolves_runProgram _ _).of_ok hfirst'
      have houtput : m₁'.output = m.output ++ m₁.output := hm.output
      refine Concludes.cons ?_
      rw [← houtput]
      refine ih ⟨⟨w', ?_, hm.here, hm.callDepth, ?_, hm.functions, hm.clock,
        String.append_empty.symm⟩, ?_⟩
      · rw [hevolves'.distances]
        exact Parallel.stores_le hm.store ⟨fun _ _ h => h, fun _ _ h => h, fun _ _ _ h => h⟩
      · intro r r' entry entry' hrefs
        rw [hevolves'.distances] at hrefs
        exact hm.distances hrefs
      · rw [hevolves'.distances, habreast.distances_loaded halike, ← hevolves.distances]
    | @error _ w' _ _ m₁ m₁' _ herror hm =>
      have houtput : m₁'.output = m.output ++ m₁.output := hm.output
      cases herror with
      | same htoken => exact .error rfl htoken (by simpa [String.join_cons] using houtput)
      | @undefined t t' hname =>
        have hlexeme : t'.lexeme = t.lexeme := by
          obtain ⟨i, -, h⟩ := hname
          exact (hrel i t t' h).lexeme
        rw [hlexeme]
        exact .error rfl hname (by simpa [String.join_cons] using houtput)
    | outOfFuel => exact .outOfFuel

/-- A fresh session that is about to run the whole is abreast of one that is about to run its
    parts. -/
theorem abreast_start (hrel : ∀ i t t', rel i t t' → t.SameText t') (reading : Nat → Float)
    (left : List (Stmt Unit)) :
    Abreast hrel 0 left (start reading) ((start reading).loaded left) := by
  refine ⟨⟨_, Comparison.machines_start reading ?_ rfl⟩, rfl⟩
  rintro r _ entry _ ⟨⟨-, hlt, -⟩, -⟩
  exact absurd hlt (Nat.not_lt_zero r)

end Abreast

end Session

end Lox
