import Mathlib.Tactic
import Lox.Grammar.Rule

/-!
Clean readings: a rule that takes some tokens, finds a tree and reports nothing. `Reads` has one
equivalence for each way in which rules are built, so that a rule is followed in both directions:
from a reading to the readings of its parts, and back.
-/

namespace Lox.Token

theorem isPunct_iff {p : Punct} {t : Token} : t.isPunct p = true ↔ t.kind = .punct p := by
  unfold isPunct
  cases t.kind <;> simp

theorem isKeyword_iff {k : Keyword} {t : Token} : t.isKeyword k = true ↔ t.kind = .keyword k := by
  unfold isKeyword
  cases t.kind <;> simp

theorem isIdentifier_iff {t : Token} : t.isIdentifier = true ↔ t.kind = .identifier := by
  unfold isIdentifier
  cases t.kind <;> simp

end Lox.Token

namespace Lox.Rule

variable {α β : Type}

/-- The rule takes the tokens in front of `rest`, finds `a` and has nothing to report. -/
def Reads (r : Rule α) (ts : List Token) (a : α) (rest : List Token) : Prop :=
  r ts = ⟨some a, [], rest⟩

/-- To read nothing leaves the tokens and has one value. -/
@[simp]
theorem reads_pure_iff {a b : α} {ts rest : List Token} :
    (pure a : Rule α).Reads ts b rest ↔ b = a ∧ rest = ts := by
  rw [Reads, pure_apply]
  simp [eq_comm]

/-- A clean reading of two rules in a row is a clean reading of each. -/
theorem reads_bind_iff {r : Rule α} {next : α → Rule β} {ts rest : List Token} {b : β} :
    (r >>= next).Reads ts b rest ↔
      ∃ a middle, r.Reads ts a middle ∧ (next a).Reads middle b rest := by
  unfold Reads
  constructor
  · intro h
    cases hresult : (r ts).result with
    | none =>
      rw [bind_apply_of_none hresult] at h
      cases h
    | some a =>
      rw [bind_apply_of_some hresult] at h
      obtain ⟨hnext, herrors, hrest⟩ := Reply.mk.inj h
      obtain ⟨hfirst, hsecond⟩ := List.append_eq_nil_iff.mp herrors
      exact ⟨a, (r ts).rest, by rw [← hresult, ← hfirst], by rw [← hnext, ← hsecond, ← hrest]⟩
  · rintro ⟨a, middle, hfirst, hsecond⟩
    rw [bind_apply_of_some (a := a) (by rw [hfirst]), hfirst, hsecond]
    rfl

/-- A reading whose value is changed is a reading. -/
@[simp]
theorem reads_map_iff {f : α → β} {r : Rule α} {ts rest : List Token} {b : β} :
    (f <$> r).Reads ts b rest ↔ ∃ a, r.Reads ts a rest ∧ b = f a := by
  change (r >>= fun a => pure (f a)).Reads ts b rest ↔ _
  rw [reads_bind_iff]
  constructor
  · rintro ⟨a, middle, ha, hb⟩
    obtain ⟨rfl, rfl⟩ := reads_pure_iff.mp hb
    exact ⟨a, ha, rfl⟩
  · rintro ⟨a, ha, rfl⟩
    exact ⟨a, rest, ha, reads_pure_iff.mpr ⟨rfl, rfl⟩⟩

/-- A reading of two rules in a row is a reading of each. -/
@[simp]
theorem reads_seqRight_iff {r : Rule α} {next : Rule β} {ts rest : List Token} {b : β} :
    (r *> next).Reads ts b rest ↔ ∃ a middle, r.Reads ts a middle ∧ next.Reads middle b rest := by
  change (r >>= fun _ => next).Reads ts b rest ↔ _
  exact reads_bind_iff

/-- A choice reads what the chosen rule reads. -/
theorem reads_ite_iff {c : Prop} [Decidable c] {r r' : Rule α} {ts rest : List Token} {a : α} :
    (if c then r else r').Reads ts a rest ↔ c ∧ r.Reads ts a rest ∨ ¬ c ∧ r'.Reads ts a rest := by
  by_cases hc : c <;> simp [hc]

/-- A failure is not a clean reading. -/
@[simp]
theorem not_reads_fail {problem : SyntaxProblem} {ts rest : List Token} {a : α} :
    ¬ (fail problem : Rule α).Reads ts a rest := by
  simp [Reads, fail]

/-- A report is not a clean reading. -/
@[simp]
theorem not_reads_report {token : Token} {problem : SyntaxProblem} {ts rest : List Token}
    {u : Unit} : ¬ (report token problem).Reads ts u rest := by
  simp [Reads, report]

@[simp]
theorem reads_peek_iff {ts rest : List Token} {t : Token} :
    peek.Reads ts t rest ↔ t = front ts ∧ rest = ts := by
  simp [Reads, peek, eq_comm]

@[simp]
theorem reads_take_iff {ts rest : List Token} {t : Token} :
    take.Reads ts t rest ↔ t = front ts ∧ rest = ts.tail := by
  simp [Reads, take, eq_comm]

theorem reads_take_seqRight_iff {r : Rule α} {a : α} {t : Token} {us rest : List Token} :
    (take *> r).Reads (t :: us) a rest ↔ r.Reads us a rest := by
  simp

/-- The token in front, when its kind alone decides the tree. -/
theorem reads_take_pure_iff {a b : α} {t : Token} {us rest : List Token} :
    (take *> pure a).Reads (t :: us) b rest ↔ b = a ∧ rest = us := by
  rw [reads_take_seqRight_iff, reads_pure_iff]

/-- The expected token is read exactly where it stands in front. -/
@[simp]
theorem reads_expect_iff {test : Token → Bool} {slot : Slot} {ts rest : List Token} {t : Token} :
    (expect test slot).Reads ts t rest ↔ ts = t :: rest ∧ test t = true := by
  cases ts with
  | nil => simp [Reads, expect, fail]
  | cons u us =>
    by_cases htest : test u = true
    · simp only [Reads, expect, htest, if_true, Reply.mk.injEq, Option.some.injEq, true_and,
        List.cons.injEq]
      constructor
      · rintro ⟨rfl, rfl⟩
        exact ⟨⟨rfl, rfl⟩, htest⟩
      · rintro ⟨⟨rfl, rfl⟩, _⟩
        exact ⟨rfl, rfl⟩
    · simp only [Reads, expect, htest, fail, List.cons.injEq]
      constructor
      · rintro ⟨h, _⟩
      · rintro ⟨⟨rfl, rfl⟩, h⟩
        exact absurd h htest

/-- An accepted token stands in front and passes the test. -/
@[simp]
theorem reads_accept?_some_iff {test : Token → Bool} {ts rest : List Token} {t : Token} :
    (accept? test).Reads ts (some t) rest ↔ ts = t :: rest ∧ test t = true := by
  cases ts with
  | nil => simp [Reads, accept?]
  | cons u us =>
    by_cases htest : test u = true
    · simp only [Reads, accept?, htest, if_true, Reply.mk.injEq, Option.some.injEq, true_and,
        List.cons.injEq]
      constructor
      · rintro ⟨rfl, rfl⟩
        exact ⟨⟨rfl, rfl⟩, htest⟩
      · rintro ⟨⟨rfl, rfl⟩, _⟩
        exact ⟨rfl, rfl⟩
    · simp only [Reads, accept?, htest, List.cons.injEq]
      constructor
      · rintro ⟨h, _⟩
      · rintro ⟨⟨rfl, rfl⟩, h⟩
        exact absurd h htest

/-- Nothing is accepted exactly where the front fails the test. -/
@[simp]
theorem reads_accept?_none_iff {test : Token → Bool} {ts rest : List Token} :
    (accept? test).Reads ts none rest ↔ rest = ts ∧ ∀ t ∈ ts.head?, test t = false := by
  cases ts with
  | nil =>
    simp only [Reads, accept?, Reply.mk.injEq, true_and]
    exact ⟨fun h => ⟨h.symm, by simp⟩, fun h => h.1.symm⟩
  | cons u us =>
    by_cases htest : test u = true
    · simp [Reads, accept?, htest]
    · simp only [Reads, accept?, htest, Bool.false_eq_true, if_false, Reply.mk.injEq, true_and]
      constructor
      · intro h
        exact ⟨h.symm, by simpa using htest⟩
      · rintro ⟨rfl, _⟩
        rfl

/-- Whatever the rule reads cleanly, `D` says of the tokens it took. -/
def Sound (r : Rule α) (D : List Token → α → Prop) : Prop :=
  ∀ ⦃ts a rest⦄, r.Reads ts a rest → ∃ taken, ts = taken ++ rest ∧ D taken a

/-- A rule is loud if it is given up only with an error. -/
def Loud (r : Rule α) : Prop :=
  ∀ ts, (r ts).result = none → (r ts).errors ≠ []

/-- Loud rules in a row are loud. -/
theorem Loud.bind {r : Rule α} {next : α → Rule β} (hr : r.Loud) (hnext : ∀ a, (next a).Loud) :
    (r >>= next).Loud := by
  intro ts hnone
  cases hresult : (r ts).result with
  | none =>
    rw [bind_apply_of_none hresult]
    exact hr ts hresult
  | some a =>
    rw [bind_apply_of_some hresult] at hnone ⊢
    intro herrors
    exact hnext a _ hnone (List.append_eq_nil_iff.mp herrors).2

theorem Loud.seqRight {r : Rule α} {next : Rule β} (hr : r.Loud) (hnext : next.Loud) :
    (r *> next).Loud :=
  hr.bind fun _ => hnext

theorem Loud.map {f : α → β} {r : Rule α} (hr : r.Loud) : (f <$> r).Loud :=
  hr.bind fun _ _ hnone => by cases hnone

/-- A rule that returns at once has a value. -/
theorem loud_pure (a : α) : (pure a : Rule α).Loud :=
  fun _ hnone => by cases hnone

/-- A failure reports its problem. -/
theorem loud_fail (problem : SyntaxProblem) : (fail problem : Rule α).Loud := by
  intro ts _
  simp [fail]

theorem loud_report (token : Token) (problem : SyntaxProblem) : (report token problem).Loud :=
  fun _ hnone => by cases hnone

theorem loud_peek : peek.Loud :=
  fun _ hnone => by cases hnone

theorem loud_take : take.Loud :=
  fun _ hnone => by cases hnone

/-- An expected token is found or its absence is reported. -/
theorem loud_expect (test : Token → Bool) (slot : Slot) : (expect test slot).Loud := by
  intro ts hnone
  unfold expect at hnone ⊢
  split at hnone
  · simp [fail]
  · split at hnone
    · cases hnone
    · rename_i htest
      simp [htest, fail]

theorem loud_accept? (test : Token → Bool) : (accept? test).Loud := by
  intro ts hnone
  unfold accept? at hnone
  split at hnone
  · cases hnone
  · split at hnone <;> cases hnone

end Lox.Rule
