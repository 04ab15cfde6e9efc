import Mathlib.Tactic
import Lox.Proofs.Grammar.Reading
import Lox.Grammar.Expression

/-!
Rules that stay in front of a semicolon. No rule for expressions takes a semicolon or looks behind
one, so what such a rule does in front of a semicolon depends neither on the tokens behind it nor on
its bound, as long as the bound is not exceeded by the tokens in front. `Confined` compares the same
rule with two bounds and in front of two rests.
-/

namespace Lox.Rule

variable {α β : Type} {semicolon : Token} {rest rest' ts : List Token}

/-- Where the front fails the test, nothing is taken. -/
theorem accept?_apply_of_not {test : Token → Bool} (h : test (front ts) = false) :
    accept? test ts = ⟨some none, [], ts⟩ := by
  cases ts with
  | nil => rfl
  | cons t us => exact if_neg (by simpa [front] using h)

theorem accept?_apply_cons {test : Token → Bool} {t : Token} (h : test t = true) :
    accept? test (t :: ts) = ⟨some (some t), [], ts⟩ :=
  if_pos h

/-- Where the front is another token, that token is reported and stays. -/
theorem expect_apply_of_not {test : Token → Bool} (h : test (front ts) = false) (slot : Slot) :
    expect test slot ts = ⟨none, [⟨front ts, .expected slot⟩], ts⟩ := by
  cases ts with
  | nil => rfl
  | cons t us => exact if_neg (by simpa [front] using h)

theorem expect_apply_cons {test : Token → Bool} {t : Token} (h : test t = true) (slot : Slot) :
    expect test slot (t :: ts) = ⟨some t, [], ts⟩ :=
  if_pos h

/-- The front of tokens that hold a semicolon does not depend on what follows it. -/
theorem front_append (ts : List Token) :
    front (ts ++ semicolon :: rest) = front (ts ++ [semicolon]) := by
  cases ts <;> rfl

/-- Both rules find the same in these tokens in front of a semicolon, whatever stands behind it, and
    leave the same of them. -/
def Confined (semicolon : Token) (rest rest' : List Token) (r r' : Rule α) (ts : List Token) :
    Prop :=
  ∃ result errors left, left <:+ ts ∧
    r (ts ++ semicolon :: rest) = ⟨result, errors, left ++ semicolon :: rest⟩ ∧
    r' (ts ++ semicolon :: rest') = ⟨result, errors, left ++ semicolon :: rest'⟩

namespace Confined

theorem pure (a : α) : Confined semicolon rest rest' (Pure.pure a) (Pure.pure a) ts :=
  ⟨some a, [], ts, List.suffix_refl _, rfl, rfl⟩

theorem fail (problem : SyntaxProblem) :
    Confined semicolon rest rest' (Rule.fail problem : Rule α) (Rule.fail problem) ts := by
  refine ⟨none, [⟨front (ts ++ [semicolon]), problem⟩], ts, List.suffix_refl _, ?_, ?_⟩
  · rw [Rule.fail, front_append]
  · rw [Rule.fail, front_append]

/-- Confined rules may stand in a row. -/
theorem bind {r r' : Rule α} {next next' : α → Rule β} (h : Confined semicolon rest rest' r r' ts)
    (hnext : ∀ a left, left <:+ ts →
      Confined semicolon rest rest' (next a) (next' a) left) :
    Confined semicolon rest rest' (r >>= next) (r' >>= next') ts := by
  obtain ⟨result, errors, left, hleft, hr, hr'⟩ := h
  cases result with
  | none =>
    refine ⟨none, errors, left, hleft, ?_, ?_⟩
    · rw [bind_apply_of_none (by rw [hr]), hr]
    · rw [bind_apply_of_none (by rw [hr']), hr']
  | some a =>
    obtain ⟨result, errors', left', hleft', hnext, hnext'⟩ := hnext a left hleft
    refine ⟨result, errors ++ errors', left', hleft'.trans hleft, ?_, ?_⟩
    · rw [bind_apply_of_some (a := a) (by rw [hr]), hr, hnext]
    · rw [bind_apply_of_some (a := a) (by rw [hr']), hr', hnext']

theorem map {r r' : Rule α} (f : α → β) (h : Confined semicolon rest rest' r r' ts) :
    Confined semicolon rest rest' (f <$> r) (f <$> r') ts :=
  h.bind fun a _ _ => pure (f a)

/-- A choice between confined rules is confined. -/
theorem ite {c : Prop} [Decidable c] {r r' s s' : Rule α}
    (h : Confined semicolon rest rest' r r' ts) (h' : Confined semicolon rest rest' s s' ts) :
    Confined semicolon rest rest' (if c then r else s) (if c then r' else s') ts := by
  by_cases hc : c
  · simpa only [hc, if_true] using h
  · simpa only [hc, if_false] using h'

/-- A rule may look at the front before it goes on. -/
theorem peek_bind {next next' : Token → Rule β}
    (h : Confined semicolon rest rest' (next (front (ts ++ [semicolon])))
      (next' (front (ts ++ [semicolon]))) ts) :
    Confined semicolon rest rest' (peek >>= next) (peek >>= next') ts := by
  obtain ⟨result, errors, left, hleft, hnext, hnext'⟩ := h
  refine ⟨result, errors, left, hleft, ?_, ?_⟩
  · rw [bind_apply_of_some (a := front (ts ++ [semicolon])) (congrArg some (front_append ts))]
    exact hnext
  · rw [bind_apply_of_some (a := front (ts ++ [semicolon])) (congrArg some (front_append ts))]
    exact hnext'

/-- A rule may take a token in front of the semicolon. -/
theorem take_bind {t : Token} {next next' : Token → Rule β}
    (h : Confined semicolon rest rest' (next t) (next' t) ts) :
    Confined semicolon rest rest' (take >>= next) (take >>= next') (t :: ts) := by
  obtain ⟨result, errors, left, hleft, hnext, hnext'⟩ := h
  refine ⟨result, errors, left, hleft.trans (List.suffix_cons t ts), ?_, ?_⟩
  · rw [List.cons_append, bind_apply_of_some (a := t) rfl]
    exact hnext
  · rw [List.cons_append, bind_apply_of_some (a := t) rfl]
    exact hnext'

/-- A report moves nothing. -/
theorem report_bind {r r' : Rule α} (token : Token) (problem : SyntaxProblem)
    (h : Confined semicolon rest rest' r r' ts) :
    Confined semicolon rest rest' (report token problem >>= fun _ => r)
      (report token problem >>= fun _ => r') ts := by
  obtain ⟨result, errors, left, hleft, hr, hr'⟩ := h
  refine ⟨result, ⟨token, problem⟩ :: errors, left, hleft, ?_, ?_⟩
  · rw [bind_apply_of_some (a := ()) rfl, report, hr]
    rfl
  · rw [bind_apply_of_some (a := ()) rfl, report, hr']
    rfl

/-- A report on the way takes nothing. -/
theorem reporting {many : Prop} [Decidable many] {problem : SyntaxProblem} {r r' : Rule α}
    (h : Confined semicolon rest rest' r r' ts) :
    Confined semicolon rest rest'
      (if many then peek >>= fun t => report t problem >>= fun _ => r else r)
      (if many then peek >>= fun t => report t problem >>= fun _ => r' else r') ts :=
  ite (peek_bind (report_bind _ problem h)) h

/-- Whether the token in front is taken: never the semicolon. -/
theorem accept?_bind {test : Token → Bool} {next next' : Option Token → Rule β}
    (hsemicolon : test semicolon = false)
    (hnone : Confined semicolon rest rest' (next none) (next' none) ts)
    (hsome : ∀ t us, ts = t :: us → test t = true →
      Confined semicolon rest rest' (next (some t)) (next' (some t)) us) :
    Confined semicolon rest rest' (accept? test >>= next) (accept? test >>= next') ts := by
  by_cases htest : test (front (ts ++ [semicolon])) = true
  · cases ts with
    | nil => simp [front, hsemicolon] at htest
    | cons t us =>
      have htake (ts : List Token) : accept? test (t :: ts) = ⟨some (some t), [], ts⟩ :=
        accept?_apply_cons htest
      obtain ⟨result, errors, left, hleft, hnext, hnext'⟩ := hsome t us rfl htest
      refine ⟨result, errors, left, hleft.trans (List.suffix_cons t us), ?_, ?_⟩
      · rw [List.cons_append, bind_apply_of_some (a := some t) (by rw [htake]), htake, hnext]
        rfl
      · rw [List.cons_append, bind_apply_of_some (a := some t) (by rw [htake]), htake, hnext']
        rfl
  · have hskip {rest : List Token} : accept? test (ts ++ semicolon :: rest) =
        ⟨some none, [], ts ++ semicolon :: rest⟩ :=
      accept?_apply_of_not (by simpa [front_append] using htest)
    obtain ⟨result, errors, left, hleft, hnext, hnext'⟩ := hnone
    refine ⟨result, errors, left, hleft, ?_, ?_⟩
    · rw [bind_apply_of_some (a := none) (by rw [hskip]), hskip, hnext]
      rfl
    · rw [bind_apply_of_some (a := none) (by rw [hskip]), hskip, hnext']
      rfl

/-- A rule may expect any token but the semicolon. -/
theorem expect_bind {test : Token → Bool} {slot : Slot} {next next' : Token → Rule β}
    (hsemicolon : test semicolon = false)
    (hnext : ∀ t us, ts = t :: us → test t = true →
      Confined semicolon rest rest' (next t) (next' t) us) :
    Confined semicolon rest rest' (expect test slot >>= next) (expect test slot >>= next') ts := by
  by_cases htest : test (front (ts ++ [semicolon])) = true
  · cases ts with
    | nil => simp [front, hsemicolon] at htest
    | cons t us =>
      have htake (ts : List Token) : expect test slot (t :: ts) = ⟨some t, [], ts⟩ :=
        expect_apply_cons htest slot
      obtain ⟨result, errors, left, hleft, hnext, hnext'⟩ := hnext t us rfl htest
      refine ⟨result, errors, left, hleft.trans (List.suffix_cons t us), ?_, ?_⟩
      · rw [List.cons_append, bind_apply_of_some (a := t) (by rw [htake]), htake, hnext]
        rfl
      · rw [List.cons_append, bind_apply_of_some (a := t) (by rw [htake]), htake, hnext']
        rfl
  · have hgive {rest : List Token} : expect test slot (ts ++ semicolon :: rest) =
        ⟨none, [⟨front (ts ++ [semicolon]), .expected slot⟩], ts ++ semicolon :: rest⟩ := by
      rw [expect_apply_of_not (by simpa [front_append] using htest), front_append]
    refine ⟨none, [⟨front (ts ++ [semicolon]), .expected slot⟩], ts, List.suffix_refl _, ?_, ?_⟩
    · rw [bind_apply_of_none (by rw [hgive]), hgive]
    · rw [bind_apply_of_none (by rw [hgive]), hgive]

end Confined

end Lox.Rule

namespace Lox.Grammar

open Rule

variable {semicolon : Token} {rest rest' ts : List Token} {inner inner' : Rule (Expr Unit)}
  {k n n' : Nat}

/-- A semicolon is no other punctuation. -/
theorem not_isPunct_of_semicolon {p : Punct} (hsemicolon : semicolon.isPunct .semicolon)
    (hp : p ≠ .semicolon) : semicolon.isPunct p = false := by
  simpa [Token.isPunct, Token.isPunct_iff.mp hsemicolon] using hp.symm

/-- The rule for an expression inside another is confined wherever there are fewer tokens. -/
def ConfinedBelow (semicolon : Token) (rest rest' : List Token) (k : Nat)
    (inner inner' : Rule (Expr Unit)) : Prop :=
  ∀ us : List Token, us.length < k → Confined semicolon rest rest' inner inner' us

/-- A primary expression is confined. -/
theorem ConfinedBelow.primary (hsemicolon : semicolon.isPunct .semicolon)
    (hinner : ConfinedBelow semicolon rest rest' k inner inner') (hts : ts.length ≤ k) :
    Confined semicolon rest rest' (primary inner) (primary inner') ts := by
  refine .peek_bind ?_
  cases ts with
  | nil =>
    simp only [List.nil_append, front, Token.isPunct_iff.mp hsemicolon]
    exact .fail _
  | cons t us =>
    have hus : us.length < k := hts
    have htake (e : Expr Unit) :
        Confined semicolon rest rest' (take *> pure e) (take *> pure e) (t :: us) :=
      .take_bind (.pure e)
    simp only [List.cons_append, front]
    generalize t.kind = kind
    cases kind with
    | punct p =>
      cases p with
      | leftParen =>
        exact .take_bind ((hinner us hus).bind fun e left _ =>
          .expect_bind (not_isPunct_of_semicolon hsemicolon (by decide)) fun _ _ _ _ => .pure _)
      | _ => exact .fail _
    | keyword k =>
      cases k with
      | false | true | nil => exact htake _
      | _ => exact .fail _
    | identifier | string | number => exact htake _
    | eof => exact .fail _

/-- The arguments of a call are confined. -/
theorem ConfinedBelow.arguments (hsemicolon : semicolon.isPunct .semicolon)
    (hinner : ConfinedBelow semicolon rest rest' k inner inner') (hts : ts.length < k)
    (hn : ts.length < n) (hn' : ts.length < n') (count : Nat) :
    Confined semicolon rest rest' (arguments inner n count) (arguments inner' n' count) ts := by
  induction n generalizing n' ts count with
  | zero => omega
  | succ n ih =>
    obtain ⟨n', rfl⟩ : ∃ j, n' = j + 1 := Nat.exists_eq_succ_of_ne_zero (by omega)
    refine .reporting ((hinner ts hts).bind fun e left hleft => ?_)
    have hlength := hleft.length_le
    refine .accept?_bind (not_isPunct_of_semicolon hsemicolon (by decide)) (.pure _) ?_
    rintro comma us rfl -
    rw [List.length_cons] at hlength
    have hothers : Confined semicolon rest rest' (Grammar.arguments inner n (count + 1))
        (Grammar.arguments inner' n' (count + 1)) us := ih (by omega) (by omega) (by omega) _
    exact hothers.bind fun es _ _ => .pure _

/-- Where no token is left in front of the semicolon, no call follows. -/
theorem calls_of_semicolon (hsemicolon : semicolon.isPunct .semicolon) (inner : Rule (Expr Unit))
    (n : Nat) (callee : Expr Unit) (rest : List Token) :
    calls inner n callee (semicolon :: rest) = ⟨some callee, [], semicolon :: rest⟩ := by
  cases n with
  | zero => rfl
  | succ n =>
    have hnone : accept? (·.isPunct .leftParen) (semicolon :: rest) =
        ⟨some none, [], semicolon :: rest⟩ :=
      accept?_apply_of_not (not_isPunct_of_semicolon hsemicolon (by decide))
    rw [calls, bind_apply_of_some (a := none) (by rw [hnone]), hnone]
    rfl

/-- Calls behind a callee are confined. -/
theorem ConfinedBelow.calls (hsemicolon : semicolon.isPunct .semicolon)
    (hinner : ConfinedBelow semicolon rest rest' k inner inner') (hts : ts.length ≤ k)
    (hn : ts.length ≤ n) (hn' : ts.length ≤ n') (callee : Expr Unit) :
    Confined semicolon rest rest' (calls inner n callee) (calls inner' n' callee) ts := by
  induction n generalizing n' ts callee with
  | zero =>
    obtain rfl := List.eq_nil_of_length_eq_zero (Nat.le_zero.mp hn)
    exact ⟨some callee, [], [], List.suffix_refl _, calls_of_semicolon hsemicolon ..,
      calls_of_semicolon hsemicolon ..⟩
  | succ n ih =>
    cases ts with
    | nil =>
      exact ⟨some callee, [], [], List.suffix_refl _, calls_of_semicolon hsemicolon ..,
        calls_of_semicolon hsemicolon ..⟩
    | cons t us =>
      rw [List.length_cons] at hts hn hn'
      obtain ⟨n', rfl⟩ : ∃ j, n' = j + 1 := Nat.exists_eq_succ_of_ne_zero (by omega)
      refine .accept?_bind (not_isPunct_of_semicolon hsemicolon (by decide)) (.pure _) ?_
      rintro openParen us' hus -
      obtain ⟨-, rfl⟩ := List.cons.inj hus
      have hend (args : List (Expr Unit)) (left : List Token) (hleft : left <:+ us) :
          Confined semicolon rest rest'
            (do
              let paren ← expect (·.isPunct .rightParen) .closeArguments
              Grammar.calls inner n (.call callee paren args))
            (do
              let paren ← expect (·.isPunct .rightParen) .closeArguments
              Grammar.calls inner' n' (.call callee paren args)) left := by
        have hlength := hleft.length_le
        refine .expect_bind (not_isPunct_of_semicolon hsemicolon (by decide)) ?_
        rintro closeParen left rfl -
        rw [List.length_cons] at hlength
        exact ih (by omega) (by omega) (by omega) (.call callee closeParen args)
      have hargs : Confined semicolon rest rest' (Grammar.arguments inner (n + 1) 0)
          (Grammar.arguments inner' (n' + 1) 0) us :=
        hinner.arguments hsemicolon (by omega) (by omega) (by omega) 0
      exact .peek_bind (.ite ((Confined.pure []).bind hend) (hargs.bind hend))

theorem ConfinedBelow.call (hsemicolon : semicolon.isPunct .semicolon)
    (hinner : ConfinedBelow semicolon rest rest' k inner inner') (hts : ts.length ≤ k)
    (hn : ts.length ≤ n) (hn' : ts.length ≤ n') :
    Confined semicolon rest rest' (call inner n) (call inner' n') ts := by
  refine (hinner.primary hsemicolon hts).bind fun callee left hleft => ?_
  have hlength := hleft.length_le
  exact hinner.calls hsemicolon (by omega) (by omega) (by omega) callee

/-- Where no token is left in front of the semicolon, there is no sign. -/
theorem unary_of_semicolon (hsemicolon : semicolon.isPunct .semicolon) (inner : Rule (Expr Unit))
    (n : Nat) (rest : List Token) :
    unary inner n (semicolon :: rest) = call inner n (semicolon :: rest) := by
  cases n with
  | zero => rfl
  | succ n =>
    have hbang : semicolon.isPunct .bang = false :=
      not_isPunct_of_semicolon hsemicolon (by decide)
    have hminus : semicolon.isPunct .minus = false :=
      not_isPunct_of_semicolon hsemicolon (by decide)
    have hnone : accept? (fun t => t.isPunct .bang || t.isPunct .minus) (semicolon :: rest) =
        ⟨some none, [], semicolon :: rest⟩ :=
      accept?_apply_of_not (by simp [front, hbang, hminus])
    rw [unary, bind_apply_of_some (a := none) (by rw [hnone]), hnone]
    rfl

/-- A unary expression is confined. -/
theorem ConfinedBelow.unary (hsemicolon : semicolon.isPunct .semicolon)
    (hinner : ConfinedBelow semicolon rest rest' k inner inner') (hts : ts.length ≤ k)
    (hn : ts.length ≤ n) (hn' : ts.length ≤ n') :
    Confined semicolon rest rest' (unary inner n) (unary inner' n') ts := by
  have hbare (n n' : Nat) : Confined semicolon rest rest' (Grammar.unary inner n)
      (Grammar.unary inner' n') [] := by
    have hcall : Confined semicolon rest rest' (Grammar.call inner n) (Grammar.call inner' n') [] :=
      hinner.call hsemicolon (Nat.zero_le _) (Nat.zero_le _) (Nat.zero_le _)
    unfold Confined at hcall ⊢
    simp only [List.nil_append] at hcall ⊢
    rwa [unary_of_semicolon hsemicolon, unary_of_semicolon hsemicolon]
  induction n generalizing n' ts with
  | zero =>
    obtain rfl := List.eq_nil_of_length_eq_zero (Nat.le_zero.mp hn)
    exact hbare 0 n'
  | succ n ih =>
    cases ts with
    | nil => exact hbare (n + 1) n'
    | cons t us =>
      obtain ⟨n', rfl⟩ : ∃ j, n' = j + 1 :=
        Nat.exists_eq_succ_of_ne_zero (by rw [List.length_cons] at hn'; omega)
      refine .accept?_bind ?_ (hinner.call hsemicolon hts hn hn') ?_
      · rw [not_isPunct_of_semicolon hsemicolon (by decide),
          not_isPunct_of_semicolon hsemicolon (by decide)]
        rfl
      · rintro operator us' hus -
        obtain ⟨-, rfl⟩ := List.cons.inj hus
        rw [List.length_cons] at hts hn hn'
        have hoperand : Confined semicolon rest rest' (Grammar.unary inner n)
            (Grammar.unary inner' n') us := ih (by omega) (by omega) (by omega)
        exact hoperand.bind fun e _ _ => .pure _

/-- Where no token is left in front of the semicolon, no operator follows. -/
theorem chain_of_semicolon {isOperator : Token → Bool} (hoperator : isOperator semicolon = false)
    (node : Expr Unit → Token → Expr Unit → Expr Unit) (operand : Rule (Expr Unit)) (n : Nat)
    (left : Expr Unit) (rest : List Token) :
    chain node isOperator operand n left (semicolon :: rest) =
      ⟨some left, [], semicolon :: rest⟩ := by
  cases n with
  | zero => rfl
  | succ n =>
    have hnone : accept? isOperator (semicolon :: rest) = ⟨some none, [], semicolon :: rest⟩ :=
      accept?_apply_of_not hoperator
    rw [chain, bind_apply_of_some (a := none) (by rw [hnone]), hnone]
    rfl

/-- A chain is confined wherever its operands are and the semicolon is no operator of it. -/
theorem confined_chain {isOperator : Token → Bool} (hoperator : isOperator semicolon = false)
    {operand operand' : Rule (Expr Unit)}
    (hoperand : ∀ us : List Token, us.length ≤ k →
      Confined semicolon rest rest' operand operand' us) (hts : ts.length ≤ k)
    (hn : ts.length ≤ n) (hn' : ts.length ≤ n')
    (node : Expr Unit → Token → Expr Unit → Expr Unit) (left : Expr Unit) :
    Confined semicolon rest rest' (chain node isOperator operand n left)
      (chain node isOperator operand' n' left) ts := by
  induction n generalizing n' ts left with
  | zero =>
    obtain rfl := List.eq_nil_of_length_eq_zero (Nat.le_zero.mp hn)
    exact ⟨some left, [], [], List.suffix_refl _, chain_of_semicolon hoperator ..,
      chain_of_semicolon hoperator ..⟩
  | succ n ih =>
    cases ts with
    | nil =>
      exact ⟨some left, [], [], List.suffix_refl _, chain_of_semicolon hoperator ..,
        chain_of_semicolon hoperator ..⟩
    | cons t us =>
      rw [List.length_cons] at hts hn hn'
      obtain ⟨n', rfl⟩ : ∃ j, n' = j + 1 := Nat.exists_eq_succ_of_ne_zero (by omega)
      refine .accept?_bind hoperator (.pure _) ?_
      rintro operator us' hus -
      obtain ⟨-, rfl⟩ := List.cons.inj hus
      refine (hoperand us (by omega)).bind fun right others hothers => ?_
      have hlength := hothers.length_le
      exact ih (by omega) (by omega) (by omega) (node left operator right)

/-- One level of operators: an operand, and those that operators join to it. -/
theorem confined_level {isOperator : Token → Bool} {operand operand' : Rule (Expr Unit)}
    (hoperator : isOperator semicolon = false)
    (hoperand : ∀ us : List Token, us.length ≤ k →
      Confined semicolon rest rest' operand operand' us) (hn : k ≤ n) (hn' : k ≤ n')
    (node : Expr Unit → Token → Expr Unit → Expr Unit) :
    ∀ us : List Token, us.length ≤ k →
      Confined semicolon rest rest' (operand >>= chain node isOperator operand n)
        (operand' >>= chain node isOperator operand' n') us := by
  intro us hus
  refine (hoperand us hus).bind fun left others hothers => ?_
  have hlength := hothers.length_le
  exact confined_chain hoperator hoperand (by omega) (by omega) (by omega) node left

/-- All levels of binary operators are confined. -/
theorem ConfinedBelow.disjunction (hsemicolon : semicolon.isPunct .semicolon)
    (hinner : ConfinedBelow semicolon rest rest' k inner inner') (hts : ts.length ≤ k)
    (hn : k ≤ n) (hn' : k ≤ n') :
    Confined semicolon rest rest' (disjunction inner n) (disjunction inner' n') ts := by
  have hpunct {p : Punct} (hp : p ≠ .semicolon) : semicolon.isPunct p = false :=
    not_isPunct_of_semicolon hsemicolon hp
  have hkeyword (word : Keyword) : semicolon.isKeyword word = false := by
    simp [Token.isKeyword, Token.isPunct_iff.mp hsemicolon]
  have hunary : ∀ us : List Token, us.length ≤ k →
      Confined semicolon rest rest' (Grammar.unary inner n) (Grammar.unary inner' n') us :=
    fun us hus => hinner.unary hsemicolon hus (by omega) (by omega)
  have hproduct : ∀ us : List Token, us.length ≤ k →
      Confined semicolon rest rest' (product inner n) (product inner' n') us :=
    confined_level (by simp [hpunct]) hunary hn hn' .binary
  have hsum : ∀ us : List Token, us.length ≤ k →
      Confined semicolon rest rest' (sum inner n) (sum inner' n') us :=
    confined_level (by simp [hpunct]) hproduct hn hn' .binary
  have hcomparison : ∀ us : List Token, us.length ≤ k →
      Confined semicolon rest rest' (comparison inner n) (comparison inner' n') us :=
    confined_level (by simp [hpunct]) hsum hn hn' .binary
  have hequality : ∀ us : List Token, us.length ≤ k →
      Confined semicolon rest rest' (equality inner n) (equality inner' n') us :=
    confined_level (by simp [hpunct]) hcomparison hn hn' .binary
  have hconjunction : ∀ us : List Token, us.length ≤ k →
      Confined semicolon rest rest' (conjunction inner n) (conjunction inner' n') us :=
    confined_level (hkeyword .and) hequality hn hn' .logical
  exact confined_level (hkeyword .or) hconjunction hn hn' .logical ts hts

/-- A rule for expressions stays in front of a semicolon, and its bound does not matter. -/
theorem confined_expression (hsemicolon : semicolon.isPunct .semicolon) (hn : ts.length < n)
    (hn' : ts.length < n') :
    Confined semicolon rest rest' (expression n) (expression n') ts := by
  induction n generalizing n' ts with
  | zero => omega
  | succ n ih =>
    obtain ⟨n', rfl⟩ : ∃ j, n' = j + 1 := Nat.exists_eq_succ_of_ne_zero (by omega)
    have hinner : ConfinedBelow semicolon rest rest' ts.length (expression n) (expression n') :=
      fun us hus => ih (by omega) (by omega)
    refine (hinner.disjunction hsemicolon (Nat.le_refl _) (by omega) (by omega)).bind
      fun target left hleft => ?_
    have hlength := hleft.length_le
    refine .accept?_bind (not_isPunct_of_semicolon hsemicolon (by decide)) (.pure _) ?_
    rintro equals us rfl -
    rw [List.length_cons] at hlength
    refine (hinner us (by omega)).bind fun value others _ => ?_
    cases target with
    | var => exact .pure _
    | _ => exact .report_bind _ _ (.pure _)

end Lox.Grammar
