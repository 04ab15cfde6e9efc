import Lox.Proofs.Grammar.Derivation
import Lox.Proofs.Grammar.Expression.Reading

namespace Lox.Grammar

open Rule

variable {inner : Rule (Expr Unit)} {n count : Nat} {ts rest : List Token}

/-- The rule for a phrase, given the rule for expressions inside it. -/
def phraseRule (inner : Rule (Expr Unit)) (n : Nat) : Phrase → Rule (Expr Unit)
  | .expression => assignment inner n
  | .tier .disjunction => disjunction inner n
  | .tier .conjunction => conjunction inner n
  | .tier .equality => equality inner n
  | .tier .comparison => comparison inner n
  | .tier .sum => sum inner n
  | .tier .product => product inner n
  | .unary => unary inner n
  | .call => call inner n
  | .primary => primary inner

/-- All levels of operators are read in the same way. -/
theorem phraseRule_tier (inner : Rule (Expr Unit)) (n : Nat) (t : Tier) :
    phraseRule inner n (.tier t) = (do
      chain t.node t.isOperator (phraseRule inner n t.operand) n
        (← phraseRule inner n t.operand)) := by
  cases t <;> rfl

/-- A primary expression that is read is derived. -/
theorem primary_sound (hinner : inner.Sound Phrase.expression.Derives) :
    (primary inner).Sound Phrase.primary.Derives := by
  intro ts e rest h
  obtain ⟨t, middle, hpeek, hatom⟩ := reads_bind_iff.mp h
  obtain ⟨rfl, rfl⟩ := reads_peek_iff.mp hpeek
  cases middle with
  | nil => exact absurd hatom not_reads_fail
  | cons t us =>
    simp only [front] at hatom
    split at hatom
    case h_1 hkind =>
      obtain ⟨rfl, rfl⟩ := reads_take_pure_iff.mp hatom
      exact ⟨[t], rfl, .falsity (Token.isKeyword_iff.mpr hkind)⟩
    case h_2 hkind =>
      obtain ⟨rfl, rfl⟩ := reads_take_pure_iff.mp hatom
      exact ⟨[t], rfl, .truth (Token.isKeyword_iff.mpr hkind)⟩
    case h_3 hkind =>
      obtain ⟨rfl, rfl⟩ := reads_take_pure_iff.mp hatom
      exact ⟨[t], rfl, .nil (Token.isKeyword_iff.mpr hkind)⟩
    case h_4 hkind =>
      obtain ⟨rfl, rfl⟩ := reads_take_pure_iff.mp hatom
      exact ⟨[t], rfl, .number hkind⟩
    case h_5 hkind =>
      obtain ⟨rfl, rfl⟩ := reads_take_pure_iff.mp hatom
      exact ⟨[t], rfl, .string hkind⟩
    case h_6 hkind =>
      obtain ⟨rfl, rfl⟩ := reads_take_pure_iff.mp hatom
      exact ⟨[t], rfl, .variable (Token.isIdentifier_iff.mpr hkind)⟩
    case h_7 hkind =>
      simp only [reads_bind_iff, reads_take_iff, reads_expect_iff, reads_pure_iff] at hatom
      obtain ⟨_, _, ⟨-, rfl⟩, e, middle, he, close, _, ⟨rfl, hclose⟩, rfl, rfl⟩ := hatom
      obtain ⟨taken, htaken, hderives⟩ := hinner he
      refine ⟨t :: (taken ++ [close]), ?_,
        .grouping (Token.isPunct_iff.mpr hkind) hderives hclose⟩
      simpa using htaken
    case h_8 => exact absurd hatom not_reads_fail

/-- Arguments that are read are derived, are separated by commas and do not exceed the limit. -/
theorem arguments_sound (hinner : inner.Sound Phrase.expression.Derives) {es : List (Expr Unit)}
    (h : (arguments inner n count).Reads ts es rest) :
    ∃ (parts : List (List Token × Expr Unit)) (taken : List Token), ts = taken ++ rest ∧
      es = parts.map Prod.snd ∧ Separated (parts.map Prod.fst) taken ∧ parts ≠ [] ∧
      (∀ part ∈ parts, Phrase.expression.Derives part.1 part.2) ∧
      count + parts.length ≤ maxArguments := by
  induction n generalizing count ts es with
  | zero => exact absurd h not_reads_fail
  | succ n ih =>
    obtain ⟨hcount, e, middle, he, hmore | ⟨-, rfl, rfl⟩⟩ := reads_arguments_succ_iff.mp h
    · obtain ⟨comma, us, es', rfl, hcomma, hes, rfl⟩ := hmore
      obtain ⟨first, rfl, hfirst⟩ := hinner he
      obtain ⟨parts, taken, rfl, rfl, hseparated, hne, hparts, hlimit⟩ := ih hes
      obtain ⟨part, others, rfl⟩ := List.exists_cons_of_ne_nil hne
      refine ⟨(first, e) :: part :: others, first ++ comma :: taken, by simp, by simp,
        .more hcomma hseparated, by simp, ?_, ?_⟩
      · simpa using ⟨hfirst, by simpa using hparts⟩
      · simp only [List.length_cons] at hlimit ⊢
        omega
    · obtain ⟨first, rfl, hfirst⟩ := hinner he
      exact ⟨[(first, e)], first, rfl, rfl, .one, by simp, by simpa using hfirst,
        by simpa using hcount⟩

/-- The calls that follow a callee, with the tokens of the callee in front. -/
theorem calls_sound (hinner : inner.Sound Phrase.expression.Derives) {before : List Token}
    {callee e : Expr Unit} (hcallee : Phrase.call.Derives before callee)
    (h : (calls inner n callee).Reads ts e rest) :
    ∃ taken, ts = taken ++ rest ∧ Phrase.call.Derives (before ++ taken) e := by
  induction n generalizing before callee ts with
  | zero =>
    obtain ⟨rfl, rfl⟩ := reads_pure_iff.mp h
    exact ⟨[], rfl, by simpa using hcallee⟩
  | succ n ih =>
    obtain ⟨openParen, us, args, closeParen, middle, rfl, hopen, hclose, hargs, hcalls⟩ |
      ⟨-, rfl, rfl⟩ := reads_calls_succ_iff.mp h
    · obtain ⟨parts, within, hus, rfl, hseparated, hparts, hlimit⟩ :
          ∃ (parts : List (List Token × Expr Unit)) (within : List Token),
            us = within ++ closeParen :: middle ∧ args = parts.map Prod.snd ∧
            Separated (parts.map Prod.fst) within ∧
            (∀ part ∈ parts, Phrase.expression.Derives part.1 part.2) ∧
            parts.length ≤ maxArguments := by
        rcases hargs with ⟨rfl, rfl⟩ | ⟨-, hargs⟩
        · exact ⟨[], [], rfl, rfl, .none, by simp, by simp⟩
        · obtain ⟨parts, within, hus, hes, hseparated, -, hparts, hlimit⟩ :=
            arguments_sound hinner hargs
          exact ⟨parts, within, hus, hes, hseparated, hparts, by omega⟩
      have hcall := Phrase.Derives.application hcallee hopen hparts hseparated hlimit hclose
      obtain ⟨taken, rfl, hderives⟩ := ih hcall hcalls
      exact ⟨openParen :: (within ++ closeParen :: taken), by simp [hus], by simpa using hderives⟩
    · exact ⟨[], rfl, by simpa using hcallee⟩

theorem call_sound (hinner : inner.Sound Phrase.expression.Derives) :
    (call inner n).Sound Phrase.call.Derives := by
  intro ts e rest h
  obtain ⟨callee, middle, hcallee, hcalls⟩ := reads_bind_iff.mp h
  obtain ⟨before, rfl, hbefore⟩ := primary_sound hinner hcallee
  obtain ⟨taken, rfl, hderives⟩ := calls_sound hinner (.callee hbefore) hcalls
  exact ⟨before ++ taken, by simp, hderives⟩

/-- A unary expression that is read is derived. -/
theorem unary_sound (hinner : inner.Sound Phrase.expression.Derives) :
    (unary inner n).Sound Phrase.unary.Derives := by
  intro ts e rest h
  induction n generalizing ts e with
  | zero =>
    obtain ⟨taken, htaken, hderives⟩ := call_sound hinner h
    exact ⟨taken, htaken, .unsigned hderives⟩
  | succ n ih =>
    obtain ⟨operator, us, e', rfl, hoperator, he, rfl⟩ | ⟨-, h⟩ := reads_unary_succ_iff.mp h
    · obtain ⟨taken, rfl, hderives⟩ := ih he
      exact ⟨operator :: taken, rfl, .signed hoperator hderives⟩
    · obtain ⟨taken, htaken, hderives⟩ := call_sound hinner h
      exact ⟨taken, htaken, .unsigned hderives⟩

/-- The operators that follow a left operand, with the tokens of that operand in front. -/
theorem chain_sound {t : Tier} {operand : Rule (Expr Unit)}
    (hoperand : operand.Sound t.operand.Derives) {before : List Token} {left e : Expr Unit}
    (hleft : (Phrase.tier t).Derives before left)
    (h : (chain t.node t.isOperator operand n left).Reads ts e rest) :
    ∃ taken, ts = taken ++ rest ∧ (Phrase.tier t).Derives (before ++ taken) e := by
  induction n generalizing before left ts with
  | zero =>
    obtain ⟨rfl, rfl⟩ := reads_pure_iff.mp h
    exact ⟨[], rfl, by simpa using hleft⟩
  | succ n ih =>
    obtain ⟨operator, us, right, middle, rfl, hoperator, hright, hothers⟩ | ⟨-, rfl, rfl⟩ :=
      reads_chain_succ_iff.mp h
    · obtain ⟨within, rfl, hwithin⟩ := hoperand hright
      obtain ⟨taken, rfl, hderives⟩ := ih (.operation hleft hoperator hwithin) hothers
      exact ⟨operator :: (within ++ taken), by simp, by simpa using hderives⟩
    · exact ⟨[], rfl, by simpa using hleft⟩

/-- A tier whose operands are sound is sound. -/
theorem tier_sound {t : Tier} (hoperand : (phraseRule inner n t.operand).Sound t.operand.Derives) :
    (phraseRule inner n (.tier t)).Sound (Phrase.tier t).Derives := by
  intro ts e rest h
  rw [phraseRule_tier] at h
  obtain ⟨left, middle, hleft, hothers⟩ := reads_bind_iff.mp h
  obtain ⟨before, rfl, hbefore⟩ := hoperand hleft
  obtain ⟨taken, rfl, hderives⟩ := chain_sound hoperand (.operand hbefore) hothers
  exact ⟨before ++ taken, by simp, hderives⟩

theorem disjunction_sound (hinner : inner.Sound Phrase.expression.Derives) :
    (disjunction inner n).Sound (Phrase.tier .disjunction).Derives := by
  have hproduct := tier_sound (t := .product) (unary_sound (n := n) hinner)
  have hsum := tier_sound (t := .sum) hproduct
  have hcomparison := tier_sound (t := .comparison) hsum
  have hequality := tier_sound (t := .equality) hcomparison
  have hconjunction := tier_sound (t := .conjunction) hequality
  exact tier_sound (t := .disjunction) hconjunction

/-- Only a name by itself has a variable for its tree. -/
theorem Phrase.Derives.eq_singleton_of_var {p : Phrase} {e : Expr Unit} {name : Token}
    (h : p.Derives ts e) (he : e = .var () name) : ts = [name] ∧ name.isIdentifier := by
  induction h with
  | disjunction _ ih | operand _ ih | unsigned _ ih | callee _ ih => exact ih he
  | «variable» hname =>
    obtain ⟨-, rfl⟩ := Expr.var.inj he
    exact ⟨rfl, hname⟩
  | @operation t => cases t <;> cases he
  | _ => cases he

/-- An assignment that is read is derived: its target is a single name. -/
theorem assignment_sound (hinner : inner.Sound Phrase.expression.Derives) :
    (assignment inner n).Sound Phrase.expression.Derives := by
  intro ts e rest h
  obtain ⟨name, equals, us, value, htarget, hequals, hvalue, rfl⟩ | ⟨htarget, -⟩ :=
    reads_assignment_iff.mp h
  · obtain ⟨before, rfl, hbefore⟩ := disjunction_sound hinner htarget
    obtain ⟨rfl, hname⟩ := hbefore.eq_singleton_of_var rfl
    obtain ⟨taken, rfl, hderives⟩ := hinner hvalue
    exact ⟨name :: equals :: taken, rfl, .assignment hname hequals hderives⟩
  · obtain ⟨taken, htaken, hderives⟩ := disjunction_sound hinner htarget
    exact ⟨taken, htaken, .disjunction hderives⟩

/-- An expression that is read is derived. -/
theorem expression_sound (n : Nat) : (expression n).Sound Phrase.expression.Derives := by
  induction n with
  | zero => exact fun _ _ _ h => absurd h not_reads_fail
  | succ n ih => exact assignment_sound ih

end Lox.Grammar
