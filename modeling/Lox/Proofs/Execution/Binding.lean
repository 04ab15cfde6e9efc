import Lox.Proofs.Execution.Evolution
import Lox.Proofs.Grammar.Partial
import Lox.Proofs.Scoping.Path

namespace Lox

/-- The frames of the first machine bind the same names in the second. -/
def Machine.SameNames (m m' : Machine) : Prop :=
  ∀ f < m.store.next, ∀ name, m'.store.binds f name = m.store.binds f name

/-- Where nothing is declared, the frames that were there bind the names that they bound. -/
theorem Machine.Evolves.sameNames {m m' : Machine} (h : m.Evolves false m') : m.SameNames m' :=
  fun f hf => h.names f hf nofun

/-- What stands in a proper tree is proper. -/
def Node.Proper : Node → Prop
  | program statements => Stmt.ProperAll statements
  | statement s => s.Proper
  | expression _ => True

namespace Node

variable {n c : Node} {p : Path}

theorem Proper.part (h : n.Proper) (hc : c ∈ n.parts) : c.Proper := by
  have hstatements {ss : List (Stmt RefId)} (h : Stmt.ProperAll ss)
      (hc : c ∈ ss.map statement) : c.Proper := by
    obtain ⟨s, hs, rfl⟩ := List.mem_map.mp hc
    exact Stmt.properAll_iff.mp h s hs
  cases n with
  | program ss => exact hstatements h hc
  | expression e =>
    obtain ⟨e', rfl⟩ := exists_expression_of_mem_parts hc
    trivial
  | statement s =>
    cases s with
    | expression e | print e =>
      obtain rfl := List.mem_singleton.mp hc
      trivial
    | var name value | «return» name value =>
      cases value with
      | none => cases hc
      | some e =>
        obtain rfl := List.mem_singleton.mp hc
        trivial
    | block body | function name parameters body =>
      rw [Proper, Stmt.Proper] at h
      exact hstatements h hc
    | «if» condition thenBranch elseBranch =>
      cases elseBranch with
      | none =>
        rcases List.mem_pair.mp hc with rfl | rfl
        · trivial
        · exact h.1
      | some elseBranch =>
        simp only [parts, List.mem_cons, List.not_mem_nil, or_false] at hc
        rcases hc with rfl | rfl | rfl
        · trivial
        · exact h.1.1
        · exact h.2.1
    | «while» condition body =>
      rcases List.mem_pair.mp hc with rfl | rfl
      · trivial
      · exact h.1

/-- Declarations stand properly at all nodes below. -/
theorem Proper.at? (h : n.Proper) (hat : n.at? p = some c) : c.Proper := by
  induction p generalizing n with
  | nil =>
    obtain rfl := Option.some.inj hat
    exact h
  | cons i p ih =>
    obtain ⟨c', hc', hat⟩ := exists_part hat
    exact ih (h.part (List.mem_of_getElem? hc')) hat

end Node

/-- Statements that are no declarations bind no names where they stand, as expressions bind none.
    A loop executes its body there, which therefore must be no declaration either. -/
theorem evolves_plain (fuel : Nat) :
    (∀ s : Stmt RefId, s.Plain → (execute fuel s).Evolves false) ∧
      ∀ condition, ∀ body : Stmt RefId, body.Plain → (loop fuel condition body).Evolves false := by
  induction fuel with
  | zero => exact ⟨fun _ _ => .throw _, fun _ _ _ => .throw _⟩
  | succ fuel ih =>
    obtain ⟨hexecute, hloop⟩ := ih
    obtain ⟨hevaluate, -, hexecuteAny, -⟩ := evolves fuel
    refine ⟨fun s hs => ?_, fun condition body hbody => ?_⟩
    · cases s with
      | expression e => exact (hevaluate e).bind fun _ => .pure _
      | print e => exact (hevaluate e).bind fun _ => (Step.Evolves.print _).bind fun _ => .pure _
      | var | function => cases hs.2
      | block body => exact Step.Evolves.get.bind fun m => .inFrame (.inOrder hexecuteAny body)
      | «if» condition thenBranch elseBranch =>
        refine (hevaluate condition).bind fun value => ?_
        cases elseBranch with
        | none =>
          split
          · exact hexecute thenBranch hs.1
          · exact .pure _
        | some elseBranch =>
          split
          · exact hexecute thenBranch hs.1.1
          · exact hexecute elseBranch hs.1.2
      | «while» condition body => exact hloop condition body hs.1
      | «return» keyword value =>
        cases value with
        | none => exact .pure _
        | some e => exact (hevaluate e).bind fun _ => .pure _
    · refine (hevaluate condition).bind fun value => ?_
      split
      · refine (hexecute body hbody).bind fun flow => ?_
        cases flow with
        | normal => exact hloop condition body hbody
        | returned value => exact .pure _
      · exact .pure _

section Declarations

variable {fuel : Nat} {m : Machine} {f : FrameId} {name : String}

/-- A name that is defined with the value of a step is bound if there is a value, and no other name
    is. -/
theorem binds_define_iff {step : Step Value} (h : step.Evolves false) (t : Token)
    (hf : f < m.store.next) :
    ((do Step.define t (← step); pure Flow.normal : Step Flow).after m).store.binds f name = true ↔
      m.store.binds f name = true ∨
        f = m.environment ∧
          (∃ flow m', (do Step.define t (← step); pure Flow.normal : Step Flow) m = .ok flow m') ∧
          t.lexeme = name := by
  have hevolves := h m
  unfold Step.after at hevolves ⊢
  rw [Step.bind_apply]
  cases hstep : step m with
  | error stop m' =>
    rw [hstep] at hevolves
    have hnames := hevolves.sameNames f hf name
    simp [hnames]
  | ok value m' =>
    rw [hstep] at hevolves
    have hnames := hevolves.sameNames f hf name
    have hframe : (m'.store.frame? f).isSome = true := by
      have hlt := Nat.lt_of_lt_of_le hf hevolves.next_le
      exact Option.isSome_iff_exists.mpr ⟨_, Array.getElem?_eq_getElem hlt⟩
    change (m'.store.define m'.environment t.lexeme value).binds f name = true ↔ _
    rw [Store.binds_define, hnames, hevolves.environment, hframe]
    have hok : ∃ flow m'', (do Step.define t value; pure Flow.normal : Step Flow) m' =
        .ok flow m'' := ⟨_, _, rfl⟩
    simp only [Bool.or_eq_true, Bool.and_eq_true, beq_iff_eq, hok, true_and, and_true,
      eq_comm (a := m.environment)]

/-- Of the frames that were there before, a statement changes only the one in which it declares, and
    only if it succeeds. -/
theorem binds_execute_iff {s : Stmt RefId} (hs : s.Proper) (hf : f < m.store.next) :
    ((execute fuel s).after m).store.binds f name = true ↔
      m.store.binds f name = true ∨
        f = m.environment ∧ (∃ flow m', execute fuel s m = .ok flow m') ∧
          ∃ t, (Node.statement s).declared? = some t ∧ t.lexeme = name := by
  cases fuel with
  | zero =>
    have herror : execute 0 s m = .error .outOfFuel m := rfl
    simp [Step.after, herror]
  | succ fuel =>
    cases hdeclares : s.declares with
    | false =>
      have hnone : (Node.statement s).declared? = none := by
        cases s <;> first | rfl | cases hdeclares
      rw [(((evolves_plain (fuel + 1)).1 s ⟨hs, hdeclares⟩) m).sameNames f hf name]
      simp [hnone]
    | true =>
      obtain ⟨hevaluate, -⟩ := evolves fuel
      cases s with
      | var t initializer =>
        have hdeclared : (∃ u, (Node.statement (.var t initializer)).declared? = some u ∧
            u.lexeme = name) ↔ t.lexeme = name := by
          simp [Node.declared?]
        rw [hdeclared]
        cases initializer with
        | none => exact binds_define_iff (.pure Value.nil) t hf
        | some e => exact binds_define_iff (hevaluate e) t hf
      | function t parameters body =>
        have hdeclared : (∃ u, (Node.statement (.function t parameters body)).declared? = some u ∧
            u.lexeme = name) ↔ t.lexeme = name := by
          simp [Node.declared?]
        rw [hdeclared]
        exact binds_define_iff (.makeFunction t parameters body) t hf
      | _ => cases hdeclares

end Declarations

end Lox
