import Lox.Proofs.Grammar.Reading
import Lox.Grammar.Expression

namespace Lox.Grammar

open Rule

variable {inner : Rule (Expr Unit)} {n count : Nat} {ts rest : List Token}

/-- Arguments are one expression, and more behind a comma. -/
theorem reads_arguments_succ_iff {es : List (Expr Unit)} :
    (arguments inner (n + 1) count).Reads ts es rest ↔
      count < maxArguments ∧ ∃ e middle, inner.Reads ts e middle ∧
        ((∃ comma us es', middle = comma :: us ∧ comma.isPunct .comma ∧
            (arguments inner n (count + 1)).Reads us es' rest ∧ es = e :: es') ∨
          (∀ t ∈ middle.head?, t.isPunct .comma = false) ∧ rest = middle ∧ es = [e]) := by
  rw [arguments]
  by_cases hlimit : maxArguments ≤ count
  · simp [hlimit, reads_bind_iff, Nat.not_lt.mpr hlimit]
  · have hcount : count < maxArguments := Nat.lt_of_not_le hlimit
    simp only [hlimit, if_false, hcount, true_and, reads_bind_iff]
    constructor
    · rintro ⟨e, middle, he, next, last, hnext, h⟩
      refine ⟨e, middle, he, ?_⟩
      cases next with
      | some comma =>
        obtain ⟨rfl, hcomma⟩ := reads_accept?_some_iff.mp hnext
        obtain ⟨es', _, hes, h⟩ := reads_bind_iff.mp h
        obtain ⟨rfl, rfl⟩ := reads_pure_iff.mp h
        exact .inl ⟨comma, last, es', rfl, hcomma, hes, rfl⟩
      | none =>
        obtain ⟨rfl, hcomma⟩ := reads_accept?_none_iff.mp hnext
        obtain ⟨rfl, rfl⟩ := reads_pure_iff.mp h
        exact .inr ⟨hcomma, rfl, rfl⟩
    · rintro ⟨e, middle, he, ⟨comma, us, es', rfl, hcomma, hes, rfl⟩ | ⟨hcomma, rfl, rfl⟩⟩
      · refine ⟨e, _, he, some comma, us, reads_accept?_some_iff.mpr ⟨rfl, hcomma⟩, ?_⟩
        exact reads_bind_iff.mpr ⟨es', rest, hes, reads_pure_iff.mpr ⟨rfl, rfl⟩⟩
      · exact ⟨e, rest, he, none, rest, reads_accept?_none_iff.mpr ⟨rfl, hcomma⟩,
          reads_pure_iff.mpr ⟨rfl, rfl⟩⟩

/-- Calls go on at an opening parenthesis and end everywhere else. -/
theorem reads_calls_succ_iff {callee e : Expr Unit} :
    (calls inner (n + 1) callee).Reads ts e rest ↔
      (∃ openParen us args closeParen middle, ts = openParen :: us ∧
        openParen.isPunct .leftParen ∧ closeParen.isPunct .rightParen ∧
        (args = [] ∧ us = closeParen :: middle ∨ (front us).isPunct .rightParen = false ∧
          (arguments inner (n + 1) 0).Reads us args (closeParen :: middle)) ∧
        (calls inner n (.call callee closeParen args)).Reads middle e rest) ∨
      (∀ t ∈ ts.head?, t.isPunct .leftParen = false) ∧ rest = ts ∧ e = callee := by
  rw [calls, reads_bind_iff]
  constructor
  · rintro ⟨next, us, hnext, h⟩
    cases next with
    | none =>
      obtain ⟨rfl, hopen⟩ := reads_accept?_none_iff.mp hnext
      obtain ⟨rfl, rfl⟩ := reads_pure_iff.mp h
      exact .inr ⟨hopen, rfl, rfl⟩
    | some openParen =>
      obtain ⟨rfl, hopen⟩ := reads_accept?_some_iff.mp hnext
      obtain ⟨_, _, hpeek, h⟩ := reads_bind_iff.mp h
      obtain ⟨rfl, rfl⟩ := reads_peek_iff.mp hpeek
      simp only [reads_ite_iff, reads_bind_iff, reads_pure_iff, reads_expect_iff] at h
      rcases h with ⟨_, args, _, ⟨rfl, rfl⟩, closeParen, middle, ⟨rfl, hclose⟩, hcalls⟩ |
        ⟨hfront, args, _, hargs, closeParen, middle, ⟨rfl, hclose⟩, hcalls⟩
      · exact .inl ⟨openParen, _, [], closeParen, middle, rfl, hopen, hclose, .inl ⟨rfl, rfl⟩,
          hcalls⟩
      · refine .inl ⟨openParen, _, args, closeParen, middle, rfl, hopen, hclose,
          .inr ⟨?_, hargs⟩, hcalls⟩
        simpa using hfront
  · rintro (⟨openParen, us, args, closeParen, middle, rfl, hopen, hclose, hargs, h⟩ |
      ⟨hopen, rfl, rfl⟩)
    · refine ⟨some openParen, us, reads_accept?_some_iff.mpr ⟨rfl, hopen⟩, ?_⟩
      refine reads_bind_iff.mpr ⟨front us, us, reads_peek_iff.mpr ⟨rfl, rfl⟩, ?_⟩
      simp only [reads_ite_iff, reads_bind_iff, reads_pure_iff, reads_expect_iff]
      rcases hargs with ⟨rfl, rfl⟩ | ⟨hfront, hargs⟩
      · exact .inl ⟨hclose, [], _, ⟨rfl, rfl⟩, closeParen, middle, ⟨rfl, hclose⟩, h⟩
      · exact .inr ⟨by simp [hfront], args, _, hargs, closeParen, middle, ⟨rfl, hclose⟩, h⟩
    · exact ⟨none, rest, reads_accept?_none_iff.mpr ⟨rfl, hopen⟩, reads_pure_iff.mpr ⟨rfl, rfl⟩⟩

/-- A chain goes on at one of its operators and ends everywhere else. -/
theorem reads_chain_succ_iff {node : Expr Unit → Token → Expr Unit → Expr Unit}
    {isOperator : Token → Bool} {operand : Rule (Expr Unit)} {left e : Expr Unit} :
    (chain node isOperator operand (n + 1) left).Reads ts e rest ↔
      (∃ operator us right middle, ts = operator :: us ∧ isOperator operator ∧
        operand.Reads us right middle ∧
        (chain node isOperator operand n (node left operator right)).Reads middle e rest) ∨
      (∀ t ∈ ts.head?, isOperator t = false) ∧ rest = ts ∧ e = left := by
  rw [chain, reads_bind_iff]
  constructor
  · rintro ⟨next, us, hnext, h⟩
    cases next with
    | none =>
      obtain ⟨rfl, hoperator⟩ := reads_accept?_none_iff.mp hnext
      obtain ⟨rfl, rfl⟩ := reads_pure_iff.mp h
      exact .inr ⟨hoperator, rfl, rfl⟩
    | some operator =>
      obtain ⟨rfl, hoperator⟩ := reads_accept?_some_iff.mp hnext
      obtain ⟨right, middle, hright, h⟩ := reads_bind_iff.mp h
      exact .inl ⟨operator, us, right, middle, rfl, hoperator, hright, h⟩
  · rintro (⟨operator, us, right, middle, rfl, hoperator, hright, h⟩ | ⟨hoperator, rfl, rfl⟩)
    · exact ⟨some operator, us, reads_accept?_some_iff.mpr ⟨rfl, hoperator⟩,
        reads_bind_iff.mpr ⟨right, middle, hright, h⟩⟩
    · exact ⟨none, rest, reads_accept?_none_iff.mpr ⟨rfl, hoperator⟩,
        reads_pure_iff.mpr ⟨rfl, rfl⟩⟩

/-- A unary expression is a prefix operator and its operand, or a call. -/
theorem reads_unary_succ_iff {e : Expr Unit} :
    (unary inner (n + 1)).Reads ts e rest ↔
      (∃ operator us e', ts = operator :: us ∧
        (operator.isPunct .bang || operator.isPunct .minus) ∧ (unary inner n).Reads us e' rest ∧
        e = .unary operator e') ∨
      (∀ t ∈ ts.head?, (t.isPunct .bang || t.isPunct .minus) = false) ∧
        (call inner (n + 1)).Reads ts e rest := by
  rw [unary, reads_bind_iff]
  constructor
  · rintro ⟨next, us, hnext, h⟩
    cases next with
    | none =>
      obtain ⟨rfl, hoperator⟩ := reads_accept?_none_iff.mp hnext
      exact .inr ⟨hoperator, h⟩
    | some operator =>
      obtain ⟨rfl, hoperator⟩ := reads_accept?_some_iff.mp hnext
      obtain ⟨e', _, he, h⟩ := reads_bind_iff.mp h
      obtain ⟨rfl, rfl⟩ := reads_pure_iff.mp h
      exact .inl ⟨operator, us, e', rfl, hoperator, he, rfl⟩
  · rintro (⟨operator, us, e', rfl, hoperator, he, rfl⟩ | ⟨hoperator, h⟩)
    · exact ⟨some operator, us, reads_accept?_some_iff.mpr ⟨rfl, hoperator⟩,
        reads_bind_iff.mpr ⟨e', rest, he, reads_pure_iff.mpr ⟨rfl, rfl⟩⟩⟩
    · exact ⟨none, ts, reads_accept?_none_iff.mpr ⟨rfl, hoperator⟩, h⟩

/-- A clean assignment has a variable on its left. -/
theorem reads_assignment_iff {e : Expr Unit} :
    (assignment inner n).Reads ts e rest ↔
      (∃ name equals us value, (disjunction inner n).Reads ts (.var () name) (equals :: us) ∧
        equals.isPunct .equal ∧ inner.Reads us value rest ∧ e = .assign () name value) ∨
      (disjunction inner n).Reads ts e rest ∧ ∀ t ∈ rest.head?, t.isPunct .equal = false := by
  rw [assignment, reads_bind_iff]
  constructor
  · rintro ⟨target, middle, htarget, h⟩
    obtain ⟨next, us, hnext, hothers⟩ := reads_bind_iff.mp h
    cases next with
    | none =>
      obtain ⟨rfl, hequals⟩ := reads_accept?_none_iff.mp hnext
      obtain ⟨rfl, rfl⟩ := reads_pure_iff.mp hothers
      exact .inr ⟨htarget, hequals⟩
    | some equals =>
      obtain ⟨rfl, hequals⟩ := reads_accept?_some_iff.mp hnext
      obtain ⟨value, _, hvalue, hnode⟩ := reads_bind_iff.mp hothers
      cases target with
      | var ref name =>
        obtain ⟨rfl, rfl⟩ := reads_pure_iff.mp hnode
        exact .inl ⟨name, equals, us, value, htarget, hequals, hvalue, rfl⟩
      | _ =>
        obtain ⟨_, _, hreport, _⟩ := reads_bind_iff.mp hnode
        exact absurd hreport not_reads_report
  · rintro (⟨name, equals, us, value, htarget, hequals, hvalue, rfl⟩ | ⟨htarget, hequals⟩)
    · refine ⟨.var () name, _, htarget, reads_bind_iff.mpr ⟨some equals, us,
        reads_accept?_some_iff.mpr ⟨rfl, hequals⟩, ?_⟩⟩
      exact reads_bind_iff.mpr ⟨value, rest, hvalue, reads_pure_iff.mpr ⟨rfl, rfl⟩⟩
    · exact ⟨e, rest, htarget, reads_bind_iff.mpr ⟨none, rest,
        reads_accept?_none_iff.mpr ⟨rfl, hequals⟩, reads_pure_iff.mpr ⟨rfl, rfl⟩⟩⟩

end Lox.Grammar
