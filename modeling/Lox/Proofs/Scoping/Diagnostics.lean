import Lox.Proofs.Scoping.Settled
import Lox.Proofs.Scoping.Walk

namespace Lox

namespace Node

/-- A function lies around `p`. -/
def InFunction (n : Node) (p : Path) : Prop :=
  ∃ q c, n.at? q = some c ∧ c.isFunction = true ∧ q <+: p ∧ q ≠ p

/-- `p` lies in the initializer of a variable of this name that is declared in the scope of a block
    or a function. -/
def InInitializer (n : Node) (name : String) (p : Path) : Prop :=
  ∃ r t e, n.at? r = some (statement (.var t (some e))) ∧ t.lexeme = name ∧ r <+: p ∧ r ≠ p ∧
    ∃ q, n.Encloses q r

/-- What is wrong at `p`: a token and a message. -/
inductive Faulty (n : Node) (p : Path) : Token → String → Prop
  | initializer {ref name} (hat : n.at? p = some (expression (.var ref name)))
      (h : n.InInitializer name.lexeme p) :
      Faulty n p name "Can't read local variable in its own initializer."
  | «return» {keyword value} (hat : n.at? p = some (statement (.return keyword value)))
      (h : ¬ n.InFunction p) :
      Faulty n p keyword "Can't return from top-level code."

variable {n c : Node} {scopes : List Scope} {inFunction : Bool} {v : Visit} {p : Path} {i : Nat}

theorem not_inFunction_nil : ¬ n.InFunction [] := by
  rintro ⟨q, c, -, -, hpre, hne⟩
  exact hne (List.prefix_nil.mp hpre)

/-- A node is inside a function if the root is one, or if it is inside one below the same part. -/
theorem inFunction_cons (hc : n.parts[i]? = some c) :
    n.InFunction (i :: p) ↔ n.isFunction = true ∨ c.InFunction p := by
  constructor
  · rintro ⟨q, c', hat, hfunction, hpre, hne⟩
    cases q with
    | nil =>
      cases hat
      exact .inl hfunction
    | cons j q =>
      obtain ⟨rfl, htail⟩ := List.cons_prefix_cons.mp hpre
      exact .inr ⟨q, c', (at?_of_part hc).symm.trans hat, hfunction, htail, fun h => hne (h ▸ rfl)⟩
  · rintro (hfunction | ⟨q, c', hat, hfunction, hpre, hne⟩)
    · exact ⟨[], n, rfl, hfunction, List.nil_prefix, (List.cons_ne_nil i p).symm⟩
    · exact ⟨i :: q, c', (at?_of_part hc).trans hat, hfunction,
        List.cons_prefix_cons.mpr ⟨rfl, hpre⟩, fun h => hne (List.cons.inj h).2⟩

/-- The walk knows whether a function lies around a node. -/
theorem Visits.inFunction_iff (h : n.Visits inFunction scopes v) :
    v.inFunction = true ↔ inFunction = true ∨ n.InFunction v.path := by
  induction h with
  | here => simp [not_inFunction_nil]
  | part hc _ ih =>
    rw [Visit.inPart, inFunction_cons hc, ih, Bool.or_eq_true, or_assoc]

end Node

namespace Scope

/-- Every declared name is defined. -/
def Defined (scopes : List Scope) : Prop :=
  ∀ scope ∈ scopes, ∀ name, scope.lookup name ≠ some false

variable {scopes : List Scope} {scope : Scope} {name t : Token}

/-- A name that is defined hides no fault. -/
theorem Defined.record (h : Defined scopes) : Defined (record name true scopes) := by
  cases scopes with
  | nil => exact h
  | cons scope outer =>
    obtain ⟨hscope, houter⟩ := List.forall_mem_cons.mp h
    refine List.forall_mem_cons.mpr ⟨fun n => ?_, houter⟩
    rw [List.lookup_cons]
    split
    · simp
    · exact hscope n

/-- A variable is defined behind its initializer. -/
theorem Defined.record_record (h : Defined scopes) :
    Defined (Scope.record name true (Scope.record name false scopes)) := by
  cases scopes with
  | nil => exact h
  | cons scope outer =>
    obtain ⟨hscope, houter⟩ := List.forall_mem_cons.mp h
    refine List.forall_mem_cons.mpr ⟨fun n => ?_, houter⟩
    rw [List.lookup_cons, List.lookup_cons]
    split
    · simp
    · exact hscope n

theorem defined_ofParameters (parameters : List Token) :
    ∀ name, (ofParameters parameters).lookup name ≠ some false := by
  intro name hlookup
  obtain ⟨before, after, hsplit, -⟩ := List.lookup_eq_some_iff.mp hlookup
  have hmem : (name, false) ∈ ofParameters parameters := by simp [hsplit]
  exact Bool.false_ne_true (mem_ofParameters.mp hmem).1

/-- Nothing is pending where all names are defined. -/
theorem Defined.isPending_eq_false (h : Defined scopes) : isPending scopes name = false := by
  cases scopes with
  | nil => rfl
  | cons scope outer =>
    simpa [isPending] using h scope List.mem_cons_self name.lexeme

/-- Of the names of settled scopes, none is pending but the one just declared. -/
theorem Defined.isPending_record (h : Defined scopes) :
    isPending (Scope.record t false scopes) name = true ↔
      scopes ≠ [] ∧ t.lexeme = name.lexeme := by
  cases scopes with
  | nil => simp [Scope.record, isPending]
  | cons scope outer =>
    have hscope := h scope List.mem_cons_self name.lexeme
    rw [Scope.record, isPending, List.lookup_cons]
    by_cases heq : name.lexeme = t.lexeme
    · simp [heq]
    · simp [beq_false_of_ne heq, hscope, Ne.symm heq]

end Scope

namespace Node

open Scope

variable {n c : Node} {scopes : List Scope} {inFunction : Bool} {v : Visit} {p : Path} {i : Nat}
  {name : Token}

/-- Behind a statement nothing is pending. -/
theorem defined_leave {scopes : List Scope} (h : Defined scopes) (s : Stmt RefId) :
    Defined ((statement s).leave scopes) := by
  cases s with
  | expression | print | block => exact h
  | var t initializer => cases initializer <;> exact h.record_record
  | function => exact h.record
  | «if» condition thenBranch elseBranch =>
    cases elseBranch with
    | none => exact defined_leave h thenBranch
    | some elseBranch =>
      have hthen : Defined ((statement thenBranch).leave scopes) := defined_leave h thenBranch
      exact defined_leave hthen elseBranch
  | «while» condition body => exact defined_leave h body
  | «return» keyword value => cases value <;> exact h

/-- What every part of a node keeps, all keep. -/
theorem leaveAll_take_induction {P : List Scope → Prop} (i : Nat) (h : P scopes)
    (hstatement : ∀ s : Stmt RefId, statement s ∈ n.parts → ∀ scopes, P scopes →
      P ((statement s).leave scopes)) :
    P (leaveAll scopes (n.parts.take i)) := by
  refine List.foldlRecOn _ _ h fun scopes hscopes c hc => ?_
  have hc := List.mem_of_mem_take hc
  cases c with
  | program => exact absurd rfl (ne_program_of_mem_parts hc)
  | statement s => exact hstatement s hc scopes hscopes
  | expression e => exact hscopes

/-- Only a variable's own initializer is walked while a name is pending. -/
theorem defined_enter (h : Defined scopes) (hn : ∀ t e, n ≠ statement (.var t (some e))) :
    Defined (n.enter scopes) := by
  cases n with
  | program | expression => exact h
  | statement s =>
    cases s with
    | var t initializer =>
      cases initializer with
      | none => exact h
      | some e => exact absurd rfl (hn t e)
    | block => exact List.forall_mem_cons.mpr ⟨by simp, h⟩
    | function t parameters body =>
      exact List.forall_mem_cons.mpr ⟨defined_ofParameters parameters, h.record⟩
    | _ => exact h

/-- A statement leaves no scope open that was not open before. -/
theorem leave_eq_nil_iff (scopes : List Scope) (s : Stmt RefId) :
    (statement s).leave scopes = [] ↔ scopes = [] := by
  have hrecord (t : Token) (defined : Bool) (scopes : List Scope) :
      Scope.record t defined scopes = [] ↔ scopes = [] := by
    cases scopes <;> simp [Scope.record]
  cases s with
  | expression | print | block => rfl
  | var t initializer => cases initializer <;> exact (hrecord ..).trans (hrecord ..)
  | function => exact hrecord ..
  | «if» condition thenBranch elseBranch =>
    cases elseBranch with
    | none => exact leave_eq_nil_iff scopes thenBranch
    | some elseBranch => exact (leave_eq_nil_iff _ elseBranch).trans (leave_eq_nil_iff _ thenBranch)
  | «while» condition body => exact leave_eq_nil_iff scopes body
  | «return» keyword value => cases value <;> rfl

/-- Outside all scopes there are none to look into. -/
theorem enter_eq_nil_iff (hn : ∀ t e, n ≠ statement (.var t (some e))) :
    n.enter scopes = [] ↔ n.opens = false ∧ scopes = [] := by
  cases n with
  | program | expression => simp [enter, opens]
  | statement s =>
    cases s with
    | var t initializer =>
      cases initializer with
      | none => simp [enter, opens]
      | some e => exact absurd rfl (hn t e)
    | _ => simp [enter, opens]

/-- Within an expression no scope opens and no name is declared. -/
theorem Visits.scopes_eq_of_expression {e : Expr RefId}
    (h : (expression e).Visits inFunction scopes v) :
    v.scopes = scopes := by
  generalize hn : expression e = n at h
  induction h generalizing e with
  | here => rfl
  | @part n c inFunction scopes i v hc h ih =>
    subst hn
    have hleave : leaveAll scopes ((expression e).parts.take i) = scopes := by
      refine leaveAll_take_induction (P := (· = scopes)) i rfl fun s hs => ?_
      obtain ⟨_, heq⟩ := exists_expression_of_mem_parts hs
      cases heq
    obtain ⟨e', rfl⟩ := exists_expression_of_mem_parts (List.mem_of_getElem? hc)
    exact (ih rfl).trans hleave

/-- `p` lies in the initializer of a variable of this name, and the variable in a scope: in one of
    the node, or in one that is open around it. -/
def Pending (n : Node) (scopes : List Scope) (name : String) (p : Path) : Prop :=
  ∃ r t e, n.at? r = some (statement (.var t (some e))) ∧ t.lexeme = name ∧ r <+: p ∧ r ≠ p ∧
    (scopes ≠ [] ∨ ∃ q, n.Encloses q r)

theorem not_pending_nil {name : String} : ¬ n.Pending scopes name [] := by
  rintro ⟨r, t, e, -, -, hpre, hne, -⟩
  exact hne (List.prefix_nil.mp hpre)

/-- In the initializer of a variable no other variable is declared. -/
theorem pending_var_cons {t : Token} {e : Expr RefId} {name : String}
    (hc : (statement (.var t (some e))).parts[i]? = some c) :
    (statement (.var t (some e))).Pending scopes name (i :: p) ↔
      scopes ≠ [] ∧ t.lexeme = name := by
  constructor
  · rintro ⟨r, t', e', hat, hname, hpre, -, hscope⟩
    cases r with
    | nil =>
      cases hat
      have hnone : ¬ ∃ q, (statement (.var t (some e))).Encloses q [] :=
        not_exists.mpr fun _ => not_encloses_nil
      exact ⟨hscope.resolve_right hnone, hname⟩
    | cons j r =>
      obtain ⟨rfl, -⟩ := List.cons_prefix_cons.mp hpre
      obtain ⟨rfl, rfl⟩ : j = 0 ∧ expression e = c := by
        simpa [parts, List.getElem?_singleton] using hc
      obtain ⟨_, heq⟩ := exists_expression_of_at? ((at?_of_part hc).symm.trans hat)
      cases heq
  · rintro ⟨hne, hname⟩
    exact ⟨[], t, e, rfl, hname, List.nil_prefix, (List.cons_ne_nil _ _).symm, .inl hne⟩

/-- Elsewhere a name is pending in a node if it is so in the part, with the scopes that are open
    there. -/
theorem pending_cons {scopes' : List Scope} {name : String} (hc : n.parts[i]? = some c)
    (hn : ∀ t e, n ≠ statement (.var t (some e)))
    (hscopes : scopes' = [] ↔ n.opens = false ∧ scopes = []) :
    n.Pending scopes name (i :: p) ↔ c.Pending scopes' name p := by
  have hscope (r : Path) : (scopes' ≠ [] ∨ ∃ q, c.Encloses q r) ↔
      scopes ≠ [] ∨ ∃ q, n.Encloses q (i :: r) := by
    rw [exists_encloses_cons hc, ne_eq, hscopes]
    grind
  constructor
  · rintro ⟨r, t, e, hat, hname, hpre, hne, hr⟩
    cases r with
    | nil => exact absurd (Option.some.inj hat) (hn t e)
    | cons j r =>
      obtain ⟨rfl, htail⟩ := List.cons_prefix_cons.mp hpre
      exact ⟨r, t, e, (at?_of_part hc).symm.trans hat, hname, htail, fun heq => hne (heq ▸ rfl),
        (hscope r).mpr hr⟩
  · rintro ⟨r, t, e, hat, hname, hpre, hne, hr⟩
    exact ⟨i :: r, t, e, (at?_of_part hc).trans hat, hname, List.cons_prefix_cons.mpr ⟨rfl, hpre⟩,
      fun heq => hne (List.cons.inj heq).2, (hscope r).mp hr⟩

/-- A name is pending just while the walk is in the initializer of its variable. -/
theorem Visits.isPending_iff (h : n.Visits inFunction scopes v) (hscopes : Defined scopes) :
    isPending v.scopes name = true ↔ n.Pending scopes name.lexeme v.path := by
  induction h with
  | here =>
    rw [hscopes.isPending_eq_false]
    exact iff_of_false Bool.false_ne_true not_pending_nil
  | @part n c inFunction scopes i v hc h ih =>
    by_cases hn : ∃ t e, n = statement (.var t (some e))
    · obtain ⟨t, e, rfl⟩ := hn
      rw [Visit.inPart, pending_var_cons hc]
      obtain ⟨rfl, rfl⟩ : i = 0 ∧ expression e = c := by
        simpa [parts, List.getElem?_singleton] using hc
      rw [h.scopes_eq_of_expression]
      exact hscopes.isPending_record
    · have hn' : ∀ t e, n ≠ statement (.var t (some e)) := fun t e heq => hn ⟨t, e, heq⟩
      have hdefined : Defined (leaveAll (n.enter scopes) (n.parts.take i)) :=
        leaveAll_take_induction i (defined_enter hscopes hn') fun s _ _ h => defined_leave h s
      have hnil : leaveAll (n.enter scopes) (n.parts.take i) = [] ↔ n.opens = false ∧ scopes = [] :=
        leaveAll_take_induction (P := fun S => S = [] ↔ n.opens = false ∧ scopes = []) i
          (enter_eq_nil_iff hn') fun s _ _ h => (leave_eq_nil_iff _ s).trans h
      exact (ih hdefined).trans (pending_cons hc hn' hnil).symm

/-- A node is reported if it reads a name that is pending or returns outside functions. -/
theorem error?_eq_some_iff {e : ScopeError} :
    n.error? inFunction scopes = some e ↔
      (∃ ref t, n = expression (.var ref t) ∧ isPending scopes t = true ∧
        e = ⟨t, .readInInitializer⟩) ∨
      ∃ keyword value, n = statement (.return keyword value) ∧ inFunction = false ∧
        e = ⟨keyword, .returnOutsideFunction⟩ := by
  cases n with
  | program => simp [error?]
  | statement s =>
    cases s with
    | «return» keyword value => cases inFunction <;> simp [error?, eq_comm (b := e)]
    | _ => simp [error?]
  | expression e =>
    cases e with
    | var ref t => simp [error?, eq_comm (b := e)]
    | _ => simp [error?]

end Node

/-- What the walk reports at a node is what is wrong there. -/
theorem Node.Visits.error?_iff {program : List (Stmt RefId)} {v : Visit} {t : Token}
    {message : String} (h : (Node.program program).Visits false [] v) :
    v.error?.map (fun e => (e.token, e.problem.message)) = some (t, message) ↔
      (Node.program program).Faulty v.path t message := by
  have hat := h.at?_eq
  have hpending (name : Token) : Scope.isPending v.scopes name = true ↔
      (Node.program program).InInitializer name.lexeme v.path := by
    rw [h.isPending_iff (by simp [Scope.Defined])]
    simp [Pending, InInitializer]
  have hfunction : v.inFunction = true ↔ (Node.program program).InFunction v.path := by
    rw [h.inFunction_iff]
    simp
  rw [Option.map_eq_some_iff]
  constructor
  · rintro ⟨e, herror, heq⟩
    cases heq
    rcases error?_eq_some_iff.mp herror with ⟨ref, name, hnode, htrue, rfl⟩ |
      ⟨keyword, value, hnode, hfalse, rfl⟩
    · exact .initializer (hnode ▸ hat) ((hpending name).mp htrue)
    · refine .return (hnode ▸ hat) fun hin => ?_
      exact Bool.false_ne_true (hfalse.symm.trans (hfunction.mpr hin))
  · intro hfaulty
    cases hfaulty with
    | initializer hat' hin =>
      have hnode := Option.some.inj (hat.symm.trans hat')
      exact ⟨_, error?_eq_some_iff.mpr (.inl ⟨_, _, hnode, (hpending _).mpr hin, rfl⟩), rfl⟩
    | «return» hat' hout =>
      have hnode := Option.some.inj (hat.symm.trans hat')
      have hfalse : v.inFunction = false := Bool.eq_false_iff.mpr fun h => hout (hfunction.mp h)
      exact ⟨_, error?_eq_some_iff.mpr (.inr ⟨_, _, hnode, hfalse, rfl⟩), rfl⟩

/-- Scoping reports, in the order in which they stand in the program, the variables that are read in
    their own initializers in a block or function, and the returns outside of all functions, each
    once, and nothing else. -/
theorem diagnostics_exact (program : List (Stmt RefId)) :
    ∃ reports : List (Path × (Token × String)),
      reports.map Prod.snd =
          (findingsOf program).errors.map (fun e => (e.token, e.problem.message)) ∧
        reports.Pairwise (·.1 < ·.1) ∧
          ∀ p token message, (p, (token, message)) ∈ reports ↔
            (Node.program program).Faulty p token message := by
  obtain ⟨visits, htour⟩ := (Node.program program).exists_tour false []
  obtain ⟨reports, hreports, hsorted, hmem⟩ :=
    htour.exists_marks fun v => v.error?.map fun e => (e.token, e.problem.message)
  refine ⟨reports, ?_, hsorted, fun p token message => ?_⟩
  · rw [hreports, ← List.map_filterMap, ← htour.errors]
    rfl
  · rw [hmem]
    constructor
    · rintro ⟨v, hv, rfl, herror⟩
      exact hv.error?_iff.mp herror
    · intro hfaulty
      obtain ⟨c, hat⟩ : ∃ c, (Node.program program).at? p = some c := by
        cases hfaulty <;> exact ⟨_, ‹_›⟩
      obtain ⟨scopes, inFunction, hv⟩ := Node.exists_visit hat
      exact ⟨_, hv, rfl, hv.error?_iff.mpr hfaulty⟩

end Lox
