import Mathlib
import Lox.Proofs.Session.Twin

namespace Lox.Session

/-- What the stages in front of a run report: lexical faults, then those of the grammar, then those
    of scoping, each in the order in which they were found. -/
def reported (s : Session) (source : String) : List Fault :=
  let read := Tokens.ofString source
  let parsed := Grammar.program read.tokens
  let found := findingsOf (Stmt.numberAll s.next parsed.statements).1
  read.errors.map .lexical ++ parsed.errors.map .grammatical ++ found.errors.map .scoping

/-- What the answer to a source says and changes. -/
structure Gated (fuel : Nat) (s : Session) (source : String) : Prop where
  isStatic : ∀ fault ∈ s.reported source, fault.isStatic
  closed : s.reported source ≠ [] → s.run? fuel source =
    some (⟨.staticFaults (s.reported source), ""⟩, { s with next := (s.analysis source).next })
  opened : s.reported source = [] → ∀ answer s', s.run? fuel source = some (answer, s') →
    answer.outcome = .success ∧ s'.sawRuntimeError = s.sawRuntimeError ∨
      ∃ e, answer.outcome = .runtimeError e ∧ (Fault.runtime e).isStatic = false ∧
        s'.sawRuntimeError = true
  unanswered : s.run? fuel source = none → s.reported source = [] ∧
    ∃ m, runProgram fuel (s.analysis source).program (s.loaded (statementsOf source)) =
      .error .outOfFuel m

/-- The answers to lines that are entered one by one, whether or not they end well. -/
def replies? : Session → List Run → Option (List Answer × Session)
  | s, [] => some ([], s)
  | s, r :: lines =>
    ((s.withReadings r.reading).run? r.fuel r.source).bind fun reply =>
      (reply.2.replies? lines).map fun rest => (reply.1 :: rest.1, rest.2)

/-- Some of these lines are taken out, with their answers, where these were static faults. -/
inductive Erases : List Run → List Answer → List Run → List Answer → Prop
  | nil : Erases [] [] [] []
  | keep {r : Run} {answer : Answer} {lines lines' : List Run} {answers answers' : List Answer}
      (h : Erases lines answers lines' answers') :
      Erases (r :: lines) (answer :: answers) (r :: lines') (answer :: answers')
  | erase {r : Run} {faults : List Fault} {output : String} {lines lines' : List Run}
      {answers answers' : List Answer} (h : Erases lines answers lines' answers') :
      Erases (r :: lines) (⟨.staticFaults faults, output⟩ :: answers) lines' answers'

variable {s s' t : Session} {source : String} {fuel : Nat} {lines lines' : List Run}
  {answers answers' : List Answer}

/-- What is reported before a run are static faults. -/
theorem isStatic_of_mem_reported {fault : Fault} (h : fault ∈ s.reported source) :
    fault.isStatic := by
  simp only [reported, List.mem_append, List.mem_map] at h
  obtain (⟨e, -, rfl⟩ | ⟨e, -, rfl⟩) | ⟨e, -, rfl⟩ := h <;> rfl

/-- Every session is gated, for every source. -/
theorem gated (fuel : Nat) (s : Session) (source : String) : s.Gated fuel source := by
  by_cases hreported : s.reported source = []
  · have hrun : s.run? fuel source = _ :=
      run?_of_accepted (r := ⟨s.machine.clock.reading, fuel, source⟩) hreported
    refine ⟨fun _ => isStatic_of_mem_reported, fun hclosed => absurd hreported hclosed, ?_, ?_⟩
    · intro _ answer s' hanswer
      rw [hrun] at hanswer
      split at hanswer
      · cases hanswer
        exact .inl ⟨rfl, rfl⟩
      · cases hanswer
        exact .inr ⟨_, rfl, rfl, rfl⟩
      · cases hanswer
    · intro hnone
      refine ⟨hreported, ?_⟩
      rw [hrun] at hnone
      split at hnone
      · cases hnone
      · cases hnone
      · rename_i m hstop
        exact ⟨m, hstop⟩
  · have hrun : s.run? fuel source = _ :=
      run?_of_rejected (r := ⟨s.machine.clock.reading, fuel, source⟩) hreported
    refine ⟨fun _ => isStatic_of_mem_reported, fun _ => hrun, fun hopened => ?_, fun hnone => ?_⟩
    · exact absurd hopened hreported
    · rw [hrun] at hnone
      cases hnone

/-- A line whose answer is static faults was not accepted. -/
theorem rejected_of_staticFaults {r : Run} {faults : List Fault} {output : String}
    (h : (s.withReadings r.reading).run? r.fuel r.source =
      some (⟨.staticFaults faults, output⟩, s')) :
    s' = { s.withReadings r.reading with next := (s.analysis r.source).next } := by
  by_cases haccepted : (s.analysis r.source).faults = []
  · rw [run?_of_accepted haccepted] at h
    split at h <;> cases h
  · rw [run?_of_rejected haccepted] at h
    cases h
    rfl

/-- The first line is answered first, and the others after it. -/
theorem replies?_cons {r : Run} (h : s.replies? (r :: lines) = some (answers, s')) :
    ∃ answer rest s₁, (s.withReadings r.reading).run? r.fuel r.source = some (answer, s₁) ∧
      s₁.replies? lines = some (rest, s') ∧ answers = answer :: rest := by
  obtain ⟨⟨answer, s₁⟩, hrun, hrest⟩ := Option.bind_eq_some_iff.mp h
  obtain ⟨⟨rest, s₂⟩, hreplies, heq⟩ := Option.map_eq_some_iff.mp hrest
  cases heq
  exact ⟨answer, rest, s₁, hrun, hreplies, rfl⟩

/-- Of two sessions that cannot be told apart, one may leave out the lines with static faults. -/
theorem Twin.replies? (h : Twin s t) (herases : Erases lines answers lines' answers')
    (hreplies : s.replies? lines = some (answers, s')) :
    ∃ t', t.replies? lines' = some (answers', t') ∧ Twin s' t' := by
  induction herases generalizing s t with
  | nil =>
    cases hreplies
    exact ⟨t, rfl, h⟩
  | @keep r answer lines lines' answers answers' _ ih =>
    obtain ⟨answer, answers, s₁, hrun, hrest, heq⟩ := replies?_cons hreplies
    cases heq
    have hsame := h.run? r
    rw [hrun] at hsame
    cases hrun' : (t.withReadings r.reading).run? r.fuel r.source with
    | none =>
      rw [hrun'] at hsame
      cases hsame
    | some reply =>
      rw [hrun'] at hsame
      obtain ⟨hanswer, htwin⟩ := Option.rel_some_some.mp hsame
      obtain ⟨t', hrest', htwin'⟩ := ih htwin hrest
      refine ⟨t', ?_, htwin'⟩
      rw [Session.replies?, hrun', Option.bind_some, hrest', hanswer]
      rfl
  | @erase r faults output lines lines' answers answers' _ ih =>
    obtain ⟨answer, answers, s₁, hrun, hrest, heq⟩ := replies?_cons hreplies
    cases heq
    obtain rfl := rejected_of_staticFaults hrun
    -- All that is left of the line is its part of the supply, which only one session goes through.
    have hnext := next_le_analysis s r.source
    exact ih (h.advance hnext (Nat.le_refl _) r.reading t.machine.clock.reading) hrest

/-- A source for which some stage in front of a run reports a fault is answered with exactly these
    faults, and changes nothing but the supply of identities. Any other source ends well or with an
    error that is not static, which the session remembers from then on. Lines that were answered
    with static faults may be taken out: all others have the answers that they had. -/
theorem static_gate :
    (∀ (fuel : Nat) (s : Session) (source : String), s.Gated fuel source) ∧
      ∀ (reading : Nat → Float) (lines lines' : List Run) (answers answers' : List Answer)
        (s : Session), (start reading).replies? lines = some (answers, s) →
        Erases lines answers lines' answers' →
        ∃ s', (start reading).replies? lines' = some (answers', s') ∧
          s'.sawRuntimeError = s.sawRuntimeError := by
  refine ⟨gated, fun reading lines lines' answers answers' s hreplies herases => ?_⟩
  obtain ⟨s', hreplies', htwin⟩ := (twin_start reading).replies? herases hreplies
  exact ⟨s', hreplies', htwin.sawRuntimeError⟩

/-- The answers to these lines, by what is seen of them from outside. -/
def seen (reply : List Answer × Session) : List (Nat × String) × Bool :=
  (reply.1.map fun answer => (answer.outcome.exitCode, answer.output), reply.2.sawRuntimeError)

def line (source : String) : Run :=
  ⟨fun _ => 0, 9, source⟩

/-- The second of these lines is no program, but has references. The last comes to an error. -/
def faultyLines : List Run :=
  [line "var a = 1;", line "a; print (a;", line "\x7b var b = a; print b; \x7d", line "print c;"]

theorem staticFaults_of_exitCode {outcome : Outcome} (h : outcome.exitCode = exitStatic) :
    ∃ faults, outcome = .staticFaults faults := by
  cases outcome with
  | staticFaults faults => exact ⟨faults, rfl⟩
  | success => cases h
  | runtimeError e => cases h

/-- Without the faulty line, the other three are answered as before. -/
theorem static_gate_faultyLines :
    ((start fun _ => 0).replies? (faultyLines.eraseIdx 1)).map seen =
      some ([(0, ""), (0, "1\n"), (exitRuntime, "")], true) := by
  have hreplies : ((start fun _ => 0).replies? faultyLines).map seen =
      some ([(0, ""), (exitStatic, ""), (0, "1\n"), (exitRuntime, "")], true) := by
    decide +kernel
  obtain ⟨⟨answers, s⟩, hreplies, hseen⟩ := Option.map_eq_some_iff.mp hreplies
  obtain ⟨hanswers, hsaw⟩ := Prod.mk.inj hseen
  simp only [List.map_eq_cons_iff, List.map_eq_nil_iff] at hanswers
  obtain ⟨a, _, rfl, ha, ⟨outcome, output⟩, _, rfl, hb, c, _, rfl, hc, d, _, rfl, hd, rfl⟩ :=
    hanswers
  obtain ⟨hfaulty, -⟩ := Prod.mk.inj hb
  obtain ⟨faults, rfl⟩ := staticFaults_of_exitCode hfaulty
  obtain ⟨-, herasing⟩ := static_gate
  obtain ⟨s', hkept, hsaw'⟩ :=
    herasing _ _ _ _ _ s hreplies (.keep (.erase (.keep (.keep .nil))))
  have hlines : faultyLines.eraseIdx 1 = [_, _, _] := rfl
  rw [hlines, hkept, Option.map_some, seen, hsaw', hsaw]
  simp only [List.map_cons, List.map_nil, ha, hc, hd]

end Lox.Session
