import Lox.Proofs.Grammar.Course
import Lox.Proofs.Grammar.Loudness
import Lox.Proofs.Token.Ending

namespace Lox

namespace Grammar

open Rule

section Expressions

variable {tokens : List Token} {eof lo i m n : Nat} {inner : Parser (Expr Unit)}
  {inner' : Rule (Expr Unit)}

/-- The parser of primary expressions gives what the rule gives. -/
theorem gives_primary (h : Ended tokens eof) (hinner : GivesFrom tokens eof (lo + 1) inner inner') :
    GivesFrom tokens eof lo (Indexed.primary inner) (primary inner') := by
  intro i hlo hi
  obtain ⟨t, ht, hdrop⟩ := h.exists_front hi
  have hlt (hend : t.isEnd = false) : i + 1 ≤ eof := h.lt_of_not_isEnd hi ht hend
  have hfront : front (tokens.drop i) = t := by
    rw [hdrop]
    rfl
  have hfail : Gives tokens eof i (i + 1) (Parser.fail (.expected .expression) : Parser (Expr Unit))
      ⟨none, [⟨t, .expected .expression⟩], t :: tokens.drop (i + 1)⟩ := by
    have hreply : Gives tokens eof i (i + 1) (Parser.fail (.expected .expression))
        (Rule.fail (.expected .expression) (tokens.drop i) : Reply (Expr Unit)) :=
      h.gives_fail hi _
    rwa [Rule.fail, hfront, hdrop] at hreply
  rw [hdrop]
  -- The literals that are keywords are tried first.
  have hskip {next : Token → Parser (Expr Unit)} {reply : Reply (Expr Unit)}
      (hfalse : t.isKeyword .false = false) (htrue : t.isKeyword .true = false)
      (hnil : t.isKeyword .nil = false)
      (hnext : Gives tokens eof i (i + 1) (next t) reply) :
      Gives tokens eof i (i + 1)
        (do
          if ← Parser.accept (·.isKeyword .false) then return .literal (.bool false)
          else if ← Parser.accept (·.isKeyword .true) then return .literal (.bool true)
          else if ← Parser.accept (·.isKeyword .nil) then return .literal .nil
          else Parser.peek >>= next) reply :=
    .skip_keyword ht hfalse (.skip_keyword ht htrue (.skip_keyword ht hnil
      (.step (steps_peek ht) hnext)))
  obtain ⟨kind, lexeme, line, offset⟩ := t
  cases kind with
  | keyword k =>
    cases k with
    | false => exact .take_keyword ht rfl (.pure (hlt rfl) _)
    | true => exact .skip_keyword ht rfl (.take_keyword ht rfl (.pure (hlt rfl) _))
    | nil =>
      exact .skip_keyword ht rfl (.skip_keyword ht rfl (.take_keyword ht rfl (.pure (hlt rfl) _)))
    | _ =>
      exact hskip rfl rfl rfl
        (.skip inner_isIdentifier ht rfl (.skip (inner_isPunct _) ht rfl hfail))
  | number value | string contents =>
    exact hskip rfl rfl rfl (.step (steps_advance ht rfl) (.pure (hlt rfl) _))
  | identifier =>
    exact hskip rfl rfl rfl
      (.take inner_isIdentifier ht rfl (.step (steps_previous ht) (.pure (hlt rfl) _)))
  | punct p =>
    refine hskip rfl rfl rfl ?_
    cases p with
    | leftParen =>
      refine .skip inner_isIdentifier ht rfl (.take (inner_isPunct _) ht rfl ?_)
      refine ((hinner (i + 1) (Nat.succ_le_succ hlo) (hlt rfl)).bind fun e j _ _ hj => ?_).mono
        (Nat.le_succ _)
      exact h.gives_consume_bind hj (inner_isPunct _) fun _ _ _ hk => .pure hk _
    | _ => exact .skip inner_isIdentifier ht rfl (.skip (inner_isPunct _) ht rfl hfail)
  | eof =>
    exact hskip rfl rfl rfl
      (.skip inner_isIdentifier ht rfl (.skip (inner_isPunct _) ht rfl hfail))

/-- The loop over arguments ends: each turn moves on by a token. -/
theorem gives_arguments (h : Ended tokens eof) (hinner : GivesFrom tokens eof lo inner inner')
    (hlo : lo ≤ i) (hi : i ≤ eof) (hm : eof < i + m) (hn : eof < i + n) (count : Nat) :
    Gives tokens eof i i (Indexed.arguments inner m count)
      (arguments inner' n count (tokens.drop i)) := by
  induction n generalizing i m count with
  | zero => omega
  | succ n ih =>
    obtain ⟨m, rfl⟩ : ∃ k, m = k + 1 := Nat.exists_eq_succ_of_ne_zero (by omega)
    refine h.gives_reporting hi (((hinner i hlo hi).mono (Nat.le_succ i)).bind
      fun e j hij _ hj => ?_)
    refine h.gives_accept hj (accepts_accept (inner_isPunct _)) (inner_isPunct _) ?_ (.pure hj _)
    intro t _ _ hlt
    have hothers := ih (m := m) (i := j + 1) (by omega) hlt (by omega) (by omega) (count + 1)
    exact (hothers.bind fun es k _ _ hk => .pure hk (e :: es)).mono (Nat.le_succ j)

/-- The loop over calls ends: each turn moves on by a token. -/
theorem gives_calls (h : Ended tokens eof) (hinner : GivesFrom tokens eof lo inner inner')
    (hlo : lo ≤ i) (hi : i ≤ eof) (hm : eof < i + m) (hn : eof < i + n) (callee : Expr Unit) :
    Gives tokens eof i i (Indexed.calls inner m callee)
      (calls inner' n callee (tokens.drop i)) := by
  induction n generalizing i m callee with
  | zero => omega
  | succ n ih =>
    obtain ⟨m, rfl⟩ : ∃ k, m = k + 1 := Nat.exists_eq_succ_of_ne_zero (by omega)
    refine h.gives_accept hi (accepts_accept (inner_isPunct _)) (inner_isPunct _) ?_ (.pure hi _)
    intro t _ _ hlt
    have hend (args : List (Expr Unit)) {j : Nat} (hij : i + 1 ≤ j) (hj : j ≤ eof) :
        Gives tokens eof j j
          (do
            let paren ← Parser.consume (·.isPunct .rightParen) .closeArguments
            Indexed.calls inner m (.call callee paren args))
          ((do
            let paren ← expect (·.isPunct .rightParen) .closeArguments
            calls inner' n (.call callee paren args) : Rule _) (tokens.drop j)) := by
      refine h.gives_consume_bind hj (inner_isPunct _) fun paren k _ hk => ?_
      exact ih (by omega) hk (by omega) (by omega) _
    change Gives tokens eof (i + 1) i
      (Indexed.finishCall inner (m + 1) callee >>= Indexed.calls inner m) _
    rw [Indexed.finishCall, Parser.bind_assoc]
    refine (h.gives_check hlt (inner_isPunct _) fun t _ => ?_).mono (Nat.le_succ i)
    cases hclosed : t.isPunct .rightParen with
    | true =>
      simp only [if_true, Parser.bind_assoc, Parser.pure_bind]
      exact hend [] (Nat.le_refl _) hlt
    | false =>
      simp only [Bool.false_eq_true, if_false, Parser.bind_assoc, Parser.pure_bind]
      have hargs := gives_arguments h (hinner.mono (by omega : lo ≤ i + 1)) (Nat.le_refl _) hlt
        (by omega : eof < i + 1 + (m + 1)) (by omega : eof < i + 1 + (n + 1)) 0
      exact hargs.bind fun args j _ hij hj => hend args hij hj

theorem gives_call (h : Ended tokens eof) (hinner : GivesFrom tokens eof (lo + 1) inner inner')
    (hm : eof < lo + m) (hn : eof < lo + n) :
    GivesFrom tokens eof lo (Indexed.call inner m) (call inner' n) := by
  intro i hlo hi
  refine (gives_primary h hinner i hlo hi).bind fun e j hij _ hj => ?_
  exact gives_calls h hinner (by omega) hj (by omega) (by omega) e

/-- A prefix operator moves on before its operand, so the fuel lasts. -/
theorem gives_unary (h : Ended tokens eof) (hinner : GivesFrom tokens eof (lo + 1) inner inner')
    (hm : eof < lo + m) (hn : eof < lo + n) :
    GivesFrom tokens eof lo (Indexed.unary inner m) (unary inner' n) := by
  induction n generalizing lo m with
  | zero => intro i hlo hi; omega
  | succ n ih =>
    intro i hlo hi
    obtain ⟨m, rfl⟩ : ∃ k, m = k + 1 := Nat.exists_eq_succ_of_ne_zero (by omega)
    have htests : AnyOf [(·.isPunct .bang), (·.isPunct .minus)]
        fun t => t.isPunct .bang || t.isPunct .minus :=
      ⟨by simp [inner_isPunct], by simp⟩
    refine h.gives_accept hi htests.accepts htests.inner_any ?_ ?_
    · intro operator ht _ hlt
      have hoperand : Gives tokens eof (i + 1) (i + 2) (Indexed.unary inner m)
          (unary inner' n (tokens.drop (i + 1))) :=
        ih (hinner.mono (Nat.le_succ _)) (by omega) (by omega) (i + 1) (Nat.succ_le_succ hlo) hlt
      refine .step (steps_previous ht) ?_
      exact (hoperand.bind fun e j _ _ hj => .pure hj (Expr.unary operator e)).mono (Nat.le_succ _)
    · exact gives_call h hinner hm hn i hlo hi

section Chain

variable {operand : Parser (Expr Unit)} {operand' : Rule (Expr Unit)}
  {tests : List (Token → Bool)} {isOperator : Token → Bool}
  {node : Expr Unit → Token → Expr Unit → Expr Unit}

/-- The loop over the operators of one level ends: each turn moves on by a token. -/
theorem gives_chain (h : Ended tokens eof) (htests : AnyOf tests isOperator)
    (hoperand : GivesFrom tokens eof lo operand operand') (hlo : lo ≤ i) (hi : i ≤ eof)
    (hm : eof < i + m) (hn : eof < i + n) (left : Expr Unit) :
    Gives tokens eof i i (Indexed.chain node tests operand m left)
      (chain node isOperator operand' n left (tokens.drop i)) := by
  induction n generalizing i m left with
  | zero => omega
  | succ n ih =>
    obtain ⟨m, rfl⟩ : ∃ k, m = k + 1 := Nat.exists_eq_succ_of_ne_zero (by omega)
    refine h.gives_accept hi htests.accepts htests.inner_any ?_ (.pure hi _)
    intro operator ht _ hlt
    refine .step (steps_previous ht) ?_
    have hright := (hoperand (i + 1) (by omega) hlt).bind fun right j _ hij hj =>
      ih (m := m) (by omega) hj (by omega) (by omega) (node left operator right)
    exact hright.mono (by omega)

/-- A level of binary operators gives what its chain gives. -/
theorem gives_level (h : Ended tokens eof) (htests : AnyOf tests isOperator)
    (hoperand : GivesFrom tokens eof lo operand operand') (hm : eof < lo + m) (hn : eof < lo + n) :
    GivesFrom tokens eof lo (Indexed.level node tests operand m)
      (operand' >>= chain node isOperator operand' n) := by
  intro i hlo hi
  refine (hoperand i hlo hi).bind fun left j _ hij hj => ?_
  exact gives_chain h htests hoperand (by omega) hj (by omega) (by omega) left

end Chain

theorem gives_disjunction (h : Ended tokens eof)
    (hinner : GivesFrom tokens eof (lo + 1) inner inner') (hm : eof < lo + m) (hn : eof < lo + n) :
    GivesFrom tokens eof lo (Indexed.disjunction inner m) (disjunction inner' n) := by
  have hproduct : GivesFrom tokens eof lo (Indexed.product inner m) (product inner' n) :=
    gives_level h ⟨by simp [inner_isPunct], by simp⟩ (gives_unary h hinner hm hn) hm hn
  have hsum : GivesFrom tokens eof lo (Indexed.sum inner m) (sum inner' n) :=
    gives_level h ⟨by simp [inner_isPunct], by simp⟩ hproduct hm hn
  have hcomparison : GivesFrom tokens eof lo (Indexed.comparison inner m) (comparison inner' n) :=
    gives_level h ⟨by simp [inner_isPunct], by simp [Bool.or_assoc]⟩ hsum hm hn
  have hequality : GivesFrom tokens eof lo (Indexed.equality inner m) (equality inner' n) :=
    gives_level h ⟨by simp [inner_isPunct], by simp⟩ hcomparison hm hn
  have hconjunction : GivesFrom tokens eof lo (Indexed.conjunction inner m)
      (conjunction inner' n) :=
    gives_level h ⟨by simp [inner_isKeyword], by simp⟩ hequality hm hn
  exact gives_level h ⟨by simp [inner_isKeyword], by simp⟩ hconjunction hm hn

/-- An assignment gives what the rule gives, and reports a wrong target without moving. -/
theorem gives_assignment (h : Ended tokens eof)
    (hinner : GivesFrom tokens eof (lo + 1) inner inner') (hm : eof < lo + m) (hn : eof < lo + n) :
    GivesFrom tokens eof lo (Indexed.assignment inner m) (assignment inner' n) := by
  intro i hlo hi
  refine (gives_disjunction h hinner hm hn i hlo hi).bind fun target j _ hij hj => ?_
  refine h.gives_accept hj (accepts_accept (inner_isPunct _)) (inner_isPunct _) ?_ (.pure hj _)
  intro equals ht _ hlt
  refine .step (steps_previous ht) ?_
  refine ((hinner (j + 1) (by omega) hlt).bind fun value k _ _ hk => ?_).mono (by omega)
  cases target with
  | var ref name => exact .pure hk _
  | _ => exact (Gives.pure hk _).report

/-- The parser of expressions gives what the rule gives, with fuel for the tokens that remain. -/
theorem gives_expression (h : Ended tokens eof) (hm : eof < lo + m) (hn : eof < lo + n) :
    GivesFrom tokens eof lo (Indexed.expression m) (expression n) := by
  induction n generalizing lo m with
  | zero => intro i hlo hi; omega
  | succ n ih =>
    intro i hlo hi
    obtain ⟨m, rfl⟩ : ∃ k, m = k + 1 := Nat.exists_eq_succ_of_ne_zero (by omega)
    have hinner : GivesFrom tokens eof (i + 1) (Indexed.expression m) (expression n) :=
      ih (by omega) (by omega)
    exact gives_assignment h hinner (by omega) (by omega) i (Nat.le_refl i) hi

end Expressions

section Statements

variable {tokens : List Token} {eof lo i m n : Nat} {inner : Parser (Stmt Unit)}
  {inner' nested' : Rule (Stmt Unit)} {nested : Parser (Option (Stmt Unit))}

theorem gives_optionalExpression (h : Ended tokens eof) (close : Punct) (hi : i ≤ eof)
    (hm : eof < i + m) (hn : eof < i + n) :
    Gives tokens eof i i (Indexed.optionalExpression m close)
      (optionalExpression n close (tokens.drop i)) := by
  refine h.gives_check hi (inner_isPunct _) fun t _ => ?_
  cases hclosed : t.isPunct close with
  | true => exact .pure hi none
  | false =>
    exact (Gives.map some (gives_expression h hm hn i (Nat.le_refl i) hi)).mono (Nat.le_succ i)

theorem gives_varDeclaration (h : Ended tokens eof) (hm : eof < lo + m) (hn : eof < lo + n) :
    GivesFrom tokens eof lo (Indexed.varDeclaration m) (varDeclaration n) := by
  intro i hlo hi
  refine (h.gives_consume hi inner_isIdentifier _).bind fun name j _ hij hj => ?_
  have hend (e : Option (Expr Unit)) {k : Nat} (hk : k ≤ eof) : Gives tokens eof k k
      (do
        let _ ← Parser.consume (·.isPunct .semicolon) .endOfVariable
        return Stmt.var name e)
      ((do
        let _ ← expect (·.isPunct .semicolon) .endOfVariable
        pure (.var name e) : Rule _) (tokens.drop k)) :=
    h.gives_consume_bind hk (inner_isPunct _) fun _ _ _ hl => .pure hl _
  refine h.gives_accept hj (accepts_accept (inner_isPunct _)) (inner_isPunct _) ?_ ?_
  · intro _ _ _ hlt
    have he := Gives.map some (gives_expression h hm hn (j + 1) (by omega) hlt)
    exact (he.bind fun e k _ _ hk => hend e hk).mono (by omega)
  · exact (Gives.pure hj none).bind fun e k _ _ hk => hend e hk

theorem gives_expressionStatement (h : Ended tokens eof) (hm : eof < lo + m)
    (hn : eof < lo + n) :
    GivesFrom tokens eof lo (Indexed.expressionStatement m) (expressionStatement n) := by
  intro i hlo hi
  refine (gives_expression h hm hn i hlo hi).bind fun e j _ _ hj => ?_
  exact h.gives_consume_bind hj (inner_isPunct _) fun _ _ _ hk => .pure hk _

theorem gives_printStatement (h : Ended tokens eof) (hm : eof < lo + m) (hn : eof < lo + n) :
    GivesFrom tokens eof lo (Indexed.printStatement m) (printStatement n) := by
  intro i hlo hi
  refine (gives_expression h hm hn i hlo hi).bind fun e j _ _ hj => ?_
  exact h.gives_consume_bind hj (inner_isPunct _) fun _ _ _ hk => .pure hk _

/-- The keyword of a `return` is the token behind the index. -/
theorem gives_returnStatement (h : Ended tokens eof) {keyword : Token}
    (hkeyword : tokens[i]? = some keyword) (hi : i + 1 ≤ eof) (hm : eof < i + 1 + m)
    (hn : eof < i + 1 + n) :
    Gives tokens eof (i + 1) (i + 1) (Indexed.returnStatement m)
      (returnStatement n keyword (tokens.drop (i + 1))) := by
  refine .step (steps_previous hkeyword) ?_
  refine (gives_optionalExpression h _ hi hm hn).bind fun e j _ _ hj => ?_
  exact h.gives_consume_bind hj (inner_isPunct _) fun _ _ _ hk => .pure hk _

/-- A declaration is read from anywhere before the end. It has always come further, also if it was
    given up, and in this case with an error. -/
structure NestedFrom (tokens : List Token) (eof lo : Nat) (nested : Parser (Option (Stmt Unit)))
    (nested' : Rule (Stmt Unit)) : Prop where
  gives : ∀ i, lo ≤ i → i < eof →
    Gives tokens eof i (i + 1) nested (nested'.total (tokens.drop i))
  loud : nested'.Loud

/-- A nested declaration is recorded with what the rule found there. -/
theorem gives_recorded (hnested : NestedFrom tokens eof lo nested nested') (hlo : lo ≤ i)
    (hi : i < eof) :
    Gives tokens eof i (i + 1) (Parser.recorded nested) (nested'.total (tokens.drop i)) := by
  obtain ⟨j, events, hp, hrest, hj, hsome, hevents⟩ := hnested.gives i hlo hi
  have hij : i < j := hsome rfl
  refine ⟨j, _, by rw [Parser.recorded, hp], hrest, hj, fun _ => hij, ?_⟩
  refine hevents.snoc rfl ⟨hij, Nat.le_refl _, fun hkept => ?_⟩
  have hnone : (nested' (tokens.drop i)).result = none := by
    simpa [total] using hkept
  exact List.length_pos_iff.mpr (hnested.loud _ hnone)

/-- The test whether to stop before a declaration, at the end or at a closing token. -/
def StopsAt (stop : Parser Bool) (closed : Token → Bool) : Prop :=
  ∀ {tokens i t}, tokens[i]? = some t → Steps tokens i stop (t.isEnd || closed t) i

section Turns

variable {closed : Token → Bool} {ts : List Token}

/-- Declarations end at the end of the tokens and where they are closed. -/
theorem declarations_succ_of_stop (h : ((front ts).isEnd || closed (front ts)) = true) :
    declarations nested' closed (n + 1) ts = ⟨some [], [], ts⟩ := by
  simp only [declarations, h, if_true]

/-- A declaration that was given up gives nothing to the list, and the others follow. -/
theorem declarations_succ_of_not_stop (h : ((front ts).isEnd || closed (front ts)) = false) :
    declarations nested' closed (n + 1) ts =
      (nested'.total >>= fun first =>
        (first.toList ++ ·) <$> declarations nested' closed n) ts := by
  simp only [declarations, h, Bool.false_eq_true, if_false]
  rw [bind_apply_of_some (r := nested'.total) (a := (nested' ts).result) rfl]
  simp only [map_apply, total]

end Turns

/-- The loop over declarations ends: every turn moves on, also where the declaration is dropped. -/
theorem gives_declarations (h : Ended tokens eof) {stop : Parser Bool} {closed : Token → Bool}
    (hstop : StopsAt stop closed) (hnested : NestedFrom tokens eof lo nested nested') (hlo : lo ≤ i)
    (hi : i ≤ eof) (hm : eof < i + m) (hn : eof < i + n) :
    Gives tokens eof i i (Indexed.declarations nested stop m)
      (declarations nested' closed n (tokens.drop i)) := by
  induction n generalizing i m with
  | zero => omega
  | succ n ih =>
    obtain ⟨m, rfl⟩ : ∃ k, m = k + 1 := Nat.exists_eq_succ_of_ne_zero (by omega)
    obtain ⟨t, ht, hdrop⟩ := h.exists_front hi
    have hfront : front (tokens.drop i) = t := by
      rw [hdrop]
      rfl
    refine .step (hstop ht) ?_
    cases hstops : t.isEnd || closed t with
    | true =>
      rw [declarations_succ_of_stop (by rwa [hfront])]
      exact .pure hi []
    | false =>
      have hlt := h.lt_of_not_isEnd hi ht (Bool.or_eq_false_iff.mp hstops).1
      rw [declarations_succ_of_not_stop (by rwa [hfront])]
      refine ((gives_recorded hnested hlo hlt).bind fun first j hij _ hj => ?_).mono (Nat.le_succ i)
      exact (ih (by omega) hj (by omega) (by omega)).bind fun others k _ _ hk => .pure hk _

/-- A block gives what the rule gives. -/
theorem gives_block (h : Ended tokens eof) (hnested : NestedFrom tokens eof lo nested nested')
    (hlo : lo ≤ i) (hi : i ≤ eof) (hm : eof < i + m) (hn : eof < i + n) :
    Gives tokens eof i i (Indexed.block nested m) (block nested' n (tokens.drop i)) := by
  have hstop : StopsAt
      (do if ← Parser.check (·.isPunct .rightBrace) then return true else Parser.isAtEnd)
      (·.isPunct .rightBrace) := by
    intro tokens i t ht
    refine (steps_check (inner_isPunct _) ht).bind ?_
    change Steps tokens i _ (t.isEnd || t.isPunct .rightBrace) i
    cases t.isPunct .rightBrace with
    | true =>
      rw [Bool.or_true]
      exact .pure true
    | false =>
      rw [Bool.or_false]
      exact steps_isAtEnd ht
  refine (gives_declarations h hstop hnested hlo hi hm hn).bind fun body j _ _ hj => ?_
  exact h.gives_consume_bind hj (inner_isPunct _) fun _ _ _ hk => .pure hk body

theorem gives_parameters (h : Ended tokens eof) (hi : i ≤ eof) (hm : eof < i + m)
    (hn : eof < i + n) (count : Nat) :
    Gives tokens eof i i (Indexed.parameters m count) (parameters n count (tokens.drop i)) := by
  induction n generalizing i m count with
  | zero => omega
  | succ n ih =>
    obtain ⟨m, rfl⟩ : ∃ k, m = k + 1 := Nat.exists_eq_succ_of_ne_zero (by omega)
    refine h.gives_reporting hi (h.gives_consume_bind hi inner_isIdentifier
      fun parameter j hij hj => ?_)
    refine h.gives_accept hj (accepts_accept (inner_isPunct _)) (inner_isPunct _) ?_ (.pure hj _)
    intro t _ _ hlt
    have hothers := ih (m := m) (i := j + 1) hlt (by omega) (by omega) (count + 1)
    exact (hothers.bind fun others k _ _ hk => .pure hk (parameter :: others)).mono (Nat.le_succ j)

/-- A function gives what the rule gives. -/
theorem gives_function (h : Ended tokens eof) (hnested : NestedFrom tokens eof lo nested nested')
    (hm : eof < lo + m) (hn : eof < lo + n) :
    GivesFrom tokens eof lo (Indexed.function nested m) (function nested' n) := by
  intro i hlo hi
  refine (h.gives_consume hi inner_isIdentifier _).bind fun name j _ hij hj => ?_
  refine h.gives_consume_bind hj (inner_isPunct _) fun _ k hjk hk => ?_
  have hend (params : List Token) {l : Nat} (hkl : k ≤ l) (hl : l ≤ eof) : Gives tokens eof l l
      (do
        let _ ← Parser.consume (·.isPunct .rightParen) .closeParameters
        let _ ← Parser.consume (·.isPunct .leftBrace) .openBody
        let body ← Indexed.block nested m
        return Stmt.function name params body)
      ((do
        let _ ← expect (·.isPunct .rightParen) .closeParameters
        let _ ← expect (·.isPunct .leftBrace) .openBody
        let body ← block nested' n
        pure (.function name params body) : Rule _) (tokens.drop l)) := by
    refine h.gives_consume_bind hl (inner_isPunct _) fun _ l' hll' hl' => ?_
    refine h.gives_consume_bind hl' (inner_isPunct _) fun _ l'' hll'' hl'' => ?_
    exact (gives_block h hnested (by omega) hl'' (by omega) (by omega)).bind
      fun body _ _ _ hend => .pure hend _
  refine h.gives_check hk (inner_isPunct _) fun t _ => ?_
  cases t.isPunct .rightParen with
  | true => exact (Gives.pure hk []).bind fun params l _ hkl hl => hend params hkl hl
  | false =>
    exact (gives_parameters h hk (by omega) (by omega) 0).bind
      fun params l _ hkl hl => hend params hkl hl

/-- A condition in parentheses, and what follows it. -/
theorem gives_condition {β : Type} (h : Ended tokens eof) (hm : eof < lo + m) (hn : eof < lo + n)
    (openSlot closeSlot : Slot) {next : Expr Unit → Parser β} {next' : Expr Unit → Rule β}
    (hnext : ∀ e, GivesFrom tokens eof lo (next e) (next' e)) :
    GivesFrom tokens eof lo
      (do
        let _ ← Parser.consume (·.isPunct .leftParen) openSlot
        let condition ← Indexed.expression m
        let _ ← Parser.consume (·.isPunct .rightParen) closeSlot
        next condition)
      (do
        let _ ← expect (·.isPunct .leftParen) openSlot
        let condition ← expression n
        let _ ← expect (·.isPunct .rightParen) closeSlot
        next' condition) := by
  intro i hlo hi
  refine (h.gives_consume hi (inner_isPunct _) _).bind fun _ j _ hij hj => ?_
  refine ((gives_expression h hm hn j (by omega) hj).mono (Nat.le_succ j)).bind
    fun condition k _ hjk hk => ?_
  refine h.gives_consume_bind hk (inner_isPunct _) fun _ l hkl hl => ?_
  exact (hnext condition l (by omega) hl).mono (Nat.le_succ l)

theorem gives_ifStatement (h : Ended tokens eof) (hinner : GivesFrom tokens eof lo inner inner')
    (hm : eof < lo + m) (hn : eof < lo + n) :
    GivesFrom tokens eof lo (Indexed.ifStatement inner m) (ifStatement inner' n) := by
  refine gives_condition h hm hn .openIf .closeIf fun condition i hlo hi => ?_
  refine (hinner i hlo hi).bind fun thenBranch j _ hij hj => ?_
  refine h.gives_accept hj (accepts_accept (inner_isKeyword _)) (inner_isKeyword _) ?_ (.pure hj _)
  intro _ _ _ hlt
  have helse := hinner (j + 1) (by omega) hlt
  exact (helse.bind fun elseBranch k _ _ hk => .pure hk
    (Stmt.if condition thenBranch (some elseBranch))).mono (by omega)

theorem gives_whileStatement (h : Ended tokens eof) (hinner : GivesFrom tokens eof lo inner inner')
    (hm : eof < lo + m) (hn : eof < lo + n) :
    GivesFrom tokens eof lo (Indexed.whileStatement inner m) (whileStatement inner' n) := by
  refine gives_condition h hm hn .openWhile .closeWhile fun condition i hlo hi => ?_
  exact (hinner i hlo hi).bind fun body j _ _ hj => .pure hj _

/-- The first clause of a `for`. The parser looks for a semicolon and then for a `var`, the rule for
    both at once. -/
theorem gives_forInitializer (h : Ended tokens eof) (hi : i ≤ eof) (hm : eof < i + m)
    (hn : eof < i + n) :
    Gives tokens eof i i (Indexed.forInitializer m) (forInitializer n (tokens.drop i)) := by
  obtain ⟨t, ht, hdrop⟩ := h.exists_front hi
  cases hsemicolon : t.isPunct .semicolon with
  | true =>
    have hvar : t.isKeyword .var = false := by
      rw [Token.isKeyword, Token.isPunct_iff.mp hsemicolon]
    rw [forInitializer, hdrop, accept?_bind_of_test (by simp [hsemicolon])]
    simp only [hvar, Bool.false_eq_true, if_false]
    have hlt := h.lt_of_inner hi ht (inner_isPunct _) hsemicolon
    exact .take (inner_isPunct _) ht hsemicolon ((Gives.pure hlt none).mono (Nat.le_succ i))
  | false =>
    refine .skip (inner_isPunct _) ht hsemicolon ?_
    cases hvar : t.isKeyword .var with
    | true =>
      rw [forInitializer, hdrop, accept?_bind_of_test (by simp [hvar])]
      simp only [hvar, if_true]
      have hlt := h.lt_of_inner hi ht (inner_isKeyword _) hvar
      have hvariable := gives_varDeclaration h hm hn (i + 1) (Nat.le_succ i) hlt
      exact .take (inner_isKeyword _) ht hvar ((Gives.map some hvariable).mono (by omega))
    | false =>
      have hfront : (front (tokens.drop i)).isPunct .semicolon = false ∧
          (front (tokens.drop i)).isKeyword .var = false := by
        rw [hdrop]
        exact ⟨hsemicolon, hvar⟩
      rw [forInitializer, accept?_bind_of_not (by simp [hfront])]
      have hexpression := gives_expressionStatement h hm hn i (Nat.le_refl i) hi
      exact .skip (inner_isKeyword _) ht hvar ((Gives.map some hexpression).mono (Nat.le_succ i))

/-- What follows the first clause of a `for`. -/
theorem gives_forClauses (h : Ended tokens eof) (hinner : GivesFrom tokens eof lo inner inner')
    (first : Option (Stmt Unit)) (hlo : lo ≤ i) (hi : i ≤ eof) (hm : eof < i + m)
    (hn : eof < i + n) :
    Gives tokens eof i i
      (do
        let condition ← Indexed.optionalExpression m .semicolon
        let _ ← Parser.consume (·.isPunct .semicolon) .endOfLoopCondition
        let increment ← Indexed.optionalExpression m .rightParen
        let _ ← Parser.consume (·.isPunct .rightParen) .closeFor
        let body ← inner
        return forLoop first condition increment body)
      (forClauses inner' n first (tokens.drop i)) := by
  refine (gives_optionalExpression h _ hi hm hn).bind fun condition j _ hij hj => ?_
  refine h.gives_consume_bind hj (inner_isPunct _) fun _ k hjk hk => ?_
  refine (gives_optionalExpression h _ hk (by omega) (by omega)).bind
    fun increment l _ hkl hl => ?_
  refine h.gives_consume_bind hl (inner_isPunct _) fun _ l' hll' hl' => ?_
  exact ((hinner l' (by omega) hl').mono (Nat.le_succ l')).bind fun body _ _ _ hend =>
    .pure hend _

/-- A loop with clauses gives what the rule gives. -/
theorem gives_forStatement (h : Ended tokens eof) (hinner : GivesFrom tokens eof lo inner inner')
    (hm : eof < lo + m) (hn : eof < lo + n) :
    GivesFrom tokens eof lo (Indexed.forStatement inner m) (forStatement inner' n) := by
  intro i hlo hi
  rw [forStatement_eq]
  refine (h.gives_consume hi (inner_isPunct _) _).bind fun _ j _ hij hj => ?_
  refine (gives_forInitializer h hj (by omega) (by omega)).bind fun first k _ hjk hk => ?_
  exact gives_forClauses h hinner first (by omega) hk (by omega) (by omega)

theorem gives_anyStatement (h : Ended tokens eof)
    (hinner : GivesFrom tokens eof (lo + 1) inner inner')
    (hnested : NestedFrom tokens eof (lo + 1) nested nested') (hm : eof < lo + m)
    (hn : eof < lo + n) :
    GivesFrom tokens eof lo (Indexed.anyStatement inner nested m)
      (anyStatement inner' nested' n) := by
  intro i hlo hi
  obtain ⟨t, ht, hdrop⟩ := h.exists_front hi
  have hlt (hend : t.isEnd = false) : i + 1 ≤ eof := h.lt_of_not_isEnd hi ht hend
  have hbehind {p : Parser (Stmt Unit)} {r : Rule (Stmt Unit)}
      (hp : GivesFrom tokens eof (lo + 1) p r) (hend : t.isEnd = false) :
      Gives tokens eof (i + 1) (i + 1) p (r (tokens.drop (i + 1))) :=
    (hp (i + 1) (Nat.succ_le_succ hlo) (hlt hend)).mono (Nat.le_succ _)
  have hexpression : Gives tokens eof i (i + 1) (Indexed.expressionStatement m)
      (expressionStatement n (t :: tokens.drop (i + 1))) := by
    rw [← hdrop]
    exact gives_expressionStatement h hm hn i hlo hi
  have hother (hfor : t.isKeyword .for = false) (hif : t.isKeyword .if = false)
      (hwhile : t.isKeyword .while = false) (hreturn : t.isKeyword .return = false)
      (hbrace : t.isPunct .leftBrace = false) (hprint : t.isKeyword .print = false) :
      Gives tokens eof i (i + 1) (Indexed.anyStatement inner nested m)
        (expressionStatement n (t :: tokens.drop (i + 1))) :=
    .skip_keyword ht hfor (.skip_keyword ht hif (.skip_keyword ht hwhile
      (.skip_keyword ht hreturn (.skip (inner_isPunct _) ht hbrace
        (.skip_keyword ht hprint hexpression)))))
  rw [hdrop]
  obtain ⟨kind, lexeme, line, offset⟩ := t
  have hm' : eof < lo + 1 + m := by omega
  have hn' : eof < lo + 1 + n := by omega
  cases kind with
  | keyword k =>
    cases k with
    | «for» => exact .take_keyword ht rfl (hbehind (gives_forStatement h hinner hm' hn') rfl)
    | «if» =>
      exact .skip_keyword ht rfl (.take_keyword ht rfl
        (hbehind (gives_ifStatement h hinner hm' hn') rfl))
    | «while» =>
      exact .skip_keyword ht rfl (.skip_keyword ht rfl (.take_keyword ht rfl
        (hbehind (gives_whileStatement h hinner hm' hn') rfl)))
    | «return» =>
      exact .skip_keyword ht rfl (.skip_keyword ht rfl (.skip_keyword ht rfl (.take_keyword ht rfl
        (gives_returnStatement h ht (hlt rfl) (by omega) (by omega)))))
    | print =>
      exact .skip_keyword ht rfl (.skip_keyword ht rfl (.skip_keyword ht rfl
        (.skip_keyword ht rfl (.skip (inner_isPunct _) ht rfl (.take_keyword ht rfl
          (hbehind (gives_printStatement h hm' hn') rfl))))))
    | _ => exact hother rfl rfl rfl rfl rfl rfl
  | punct p =>
    cases p with
    | leftBrace =>
      have hblock := Gives.map Stmt.block (gives_block h hnested (Nat.succ_le_succ hlo) (hlt rfl)
        (by omega : eof < i + 1 + m) (by omega : eof < i + 1 + n))
      exact .skip_keyword ht rfl (.skip_keyword ht rfl (.skip_keyword ht rfl
        (.skip_keyword ht rfl (.take (inner_isPunct _) ht rfl hblock))))
    | _ => exact hother rfl rfl rfl rfl rfl rfl
  | _ => exact hother rfl rfl rfl rfl rfl rfl

/-- In front of a boundary the parser stops. -/
theorem steps_resume_of_boundary {behind t : Token} (hbehind : tokens[i]? = some behind)
    (ht : tokens[i + 1]? = some t)
    (hstops : (t.isEnd || behind.isPunct .semicolon || t.startsStatement) = true) :
    Steps tokens (i + 1) (Parser.resume (m + 1)) () (i + 1) := by
  refine (steps_isAtEnd ht).bind ?_
  cases hend : t.isEnd with
  | true => exact .pure ()
  | false =>
    refine (steps_previous hbehind).bind ?_
    cases hsemicolon : behind.isPunct .semicolon with
    | true => exact .pure ()
    | false =>
      refine (steps_peek ht).bind ?_
      have hstarts : t.startsStatement = true := by simpa [hend, hsemicolon] using hstops
      rw [hstarts]
      exact .pure ()

/-- Elsewhere it goes on behind the token in front. -/
theorem steps_resume_of_not_boundary {behind t : Token} {j : Nat}
    (hbehind : tokens[i]? = some behind) (ht : tokens[i + 1]? = some t)
    (hstops : (t.isEnd || behind.isPunct .semicolon || t.startsStatement) = false)
    (hresume : Steps tokens (i + 2) (Parser.resume m) () j) :
    Steps tokens (i + 1) (Parser.resume (m + 1)) () j := by
  obtain ⟨hbefore, hstarts⟩ := Bool.or_eq_false_iff.mp hstops
  obtain ⟨hend, hsemicolon⟩ := Bool.or_eq_false_iff.mp hbefore
  refine (steps_isAtEnd ht).bind ?_
  rw [hend]
  refine (steps_previous hbehind).bind ?_
  rw [hsemicolon]
  refine (steps_peek ht).bind ?_
  rw [hstarts]
  exact (steps_advance ht hend).bind hresume

/-- The parser goes on to the boundary that comes next. -/
theorem exists_steps_resume (h : Ended tokens eof) {behind : Token}
    (hbehind : tokens[i]? = some behind) (hi : i + 1 ≤ eof) (hm : eof < i + 1 + m) :
    ∃ j, Steps tokens (i + 1) (Parser.resume m) () j ∧ j ≤ eof ∧
      boundary behind (tokens.drop (i + 1)) = tokens.drop j := by
  induction m generalizing i behind with
  | zero => omega
  | succ m ih =>
    obtain ⟨t, ht, hdrop⟩ := h.exists_front hi
    rw [hdrop, boundary, ← hdrop]
    cases hstops : t.isEnd || behind.isPunct .semicolon || t.startsStatement with
    | true => exact ⟨i + 1, steps_resume_of_boundary hbehind ht hstops, hi, by simp⟩
    | false =>
      have hend : t.isEnd = false :=
        (Bool.or_eq_false_iff.mp (Bool.or_eq_false_iff.mp hstops).1).1
      obtain ⟨j, hresume, hj, hboundary⟩ := ih ht (h.lt_of_not_isEnd hi ht hend) (by omega)
      have hsteps := steps_resume_of_not_boundary hbehind ht hstops hresume
      exact ⟨j, hsteps, hj, by simpa using hboundary⟩

/-- Where a declaration was given up the parser goes on to the next boundary, and further than
    where the declaration began, as that was in front of the end. -/
theorem exists_steps_synchronize (h : Ended tokens eof) {start : Nat} (hstart : start ≤ i)
    (hlt : start < eof) (hi : i ≤ eof) (hm : eof < i + m) :
    ∃ j, Steps tokens i (Parser.synchronize m) () j ∧ j ≤ eof ∧ start < j ∧
      skipToBoundary (tokens.drop i) = tokens.drop j := by
  obtain ⟨t, ht, hdrop⟩ := h.exists_front hi
  cases hend : t.isEnd with
  | false =>
    have hlt := h.lt_of_not_isEnd hi ht hend
    obtain ⟨j, hresume, hj, hdropped⟩ := exists_steps_resume h ht hlt (by omega : eof < i + 1 + m)
    refine ⟨j, (steps_peek ht).bind ((steps_advance ht hend).bind hresume), hj, ?_, ?_⟩
    · obtain ⟨events, -, hevents⟩ := hresume
      exact Nat.lt_of_le_of_lt hstart hevents.le
    · rw [hdrop, skipToBoundary, if_neg (by simp [hend]), hdropped]
  | true =>
    obtain rfl := (h.isEnd_iff ht).mp hend
    obtain ⟨j, rfl⟩ : ∃ j, i = j + 1 := Nat.exists_eq_succ_of_ne_zero (by omega)
    obtain ⟨m, rfl⟩ : ∃ k, m = k + 1 := Nat.exists_eq_succ_of_ne_zero (by omega)
    obtain ⟨behind, hbehind, -⟩ := h.exists_front (Nat.le_succ j)
    refine ⟨j + 1, (steps_peek ht).bind ?_, Nat.le_refl _, hlt, ?_⟩
    · refine (steps_advance_of_isEnd ht hend hbehind).bind ((steps_isAtEnd ht).bind ?_)
      rw [hend]
      exact .pure ()
    · rw [hdrop, skipToBoundary, if_pos hend]

/-- Recovery moves on by a token at least, so no declaration is tried twice at one index. -/
theorem gives_recover (h : Ended tokens eof) {p : Parser (Stmt Unit)} {r : Rule (Stmt Unit)}
    (hi : i < eof) (hm : eof < i + m) (hp : Gives tokens eof i (i + 1) p (r (tokens.drop i))) :
    Gives tokens eof i (i + 1) (Parser.recover p m) ((recovering r).total (tokens.drop i)) := by
  obtain ⟨j, events, hp, hrest, hj, hsome, hevents⟩ := hp
  generalize hreply : r (tokens.drop i) = reply at hp hrest hsome hevents
  obtain ⟨result, errors, rest⟩ := reply
  cases result with
  | some s =>
    have htotal : (recovering r).total (tokens.drop i) = ⟨some (some s), errors, rest⟩ := by
      rw [total, recovering, hreply]
    rw [htotal]
    exact ⟨j, events, by rw [Parser.recover, hp], hrest, hj, fun _ => hsome rfl, hevents⟩
  | none =>
    obtain ⟨k, ⟨events', hsynchronize, hevents'⟩, hk, hlt, hskip⟩ :=
      exists_steps_synchronize h hevents.le hi hj
        (hm.trans_le (Nat.add_le_add_right hevents.le m))
    have htotal : (recovering r).total (tokens.drop i) =
        ⟨some none, errors, skipToBoundary rest⟩ := by
      rw [total, recovering, hreply]
    rw [htotal]
    refine ⟨k, events ++ events', ?_, (congrArg skipToBoundary hrest).trans hskip, hk,
      fun _ => hlt, hevents.append hevents'⟩
    rw [Parser.recover, hp]
    simp only [hsynchronize, List.append_nil]

/-- A declaration moves on by a token at least and gives what the rule gives. -/
theorem gives_anyDeclaration (h : Ended tokens eof)
    (hinner : GivesFrom tokens eof (lo + 1) inner inner')
    (hnested : NestedFrom tokens eof (lo + 1) nested nested') (hm : eof < lo + m)
    (hn : eof < lo + n) (hlo : lo ≤ i) (hi : i < eof) :
    Gives tokens eof i (i + 1) (Indexed.anyDeclaration inner nested m)
      ((anyDeclaration inner' nested' n).total (tokens.drop i)) := by
  refine gives_recover h hi (by omega) ?_
  obtain ⟨t, ht, hdrop⟩ := h.exists_front hi.le
  have hstatement : Gives tokens eof i (i + 1) (Indexed.anyStatement inner nested m)
      (anyStatement inner' nested' n (t :: tokens.drop (i + 1))) := by
    rw [← hdrop]
    exact gives_anyStatement h hinner hnested hm hn i hlo hi.le
  rw [hdrop]
  refine .step (steps_peek ht) ?_
  have hother (hfun : t.isKeyword .fun = false) (hvar : t.isKeyword .var = false) :
      Gives tokens eof i (i + 1)
        (do
          if ← Parser.accept (·.isKeyword .fun) then Indexed.function nested m
          else if ← Parser.accept (·.isKeyword .var) then Indexed.varDeclaration m
          else Indexed.anyStatement inner nested m)
        (anyStatement inner' nested' n (t :: tokens.drop (i + 1))) :=
    .skip (inner_isKeyword _) ht hfun (.skip (inner_isKeyword _) ht hvar hstatement)
  have hbehind {p : Parser (Stmt Unit)} {r : Rule (Stmt Unit)}
      (hp : GivesFrom tokens eof (lo + 1) p r) :
      Gives tokens eof (i + 1) (i + 1) p (r (tokens.drop (i + 1))) :=
    (hp (i + 1) (Nat.succ_le_succ hlo) hi).mono (Nat.le_succ _)
  obtain ⟨kind, lexeme, line, offset⟩ := t
  cases kind with
  | keyword k =>
    cases k with
    | «fun» =>
      exact .take (inner_isKeyword _) ht rfl
        (hbehind (gives_function h hnested (by omega) (by omega)))
    | var =>
      exact .skip (inner_isKeyword _) ht rfl (.take (inner_isKeyword _) ht rfl
        (hbehind (gives_varDeclaration h (by omega) (by omega))))
    | _ => exact hother rfl rfl
  | _ => exact hother rfl rfl

/-- Statements and declarations of every nesting give what their rules give. -/
theorem gives_statement_declaration (h : Ended tokens eof) (hm : eof < lo + m)
    (hn : eof < lo + n) :
    GivesFrom tokens eof lo (Indexed.statement m) (statement n) ∧
      NestedFrom tokens eof lo (Indexed.declaration m) (declaration n) := by
  induction n generalizing lo m with
  | zero => exact ⟨fun i hlo hi => by omega, fun i hlo hi => by omega, loud_declaration 0⟩
  | succ n ih =>
    cases m with
    | zero => exact ⟨fun i hlo hi => by omega, fun i hlo hi => by omega, loud_declaration (n + 1)⟩
    | succ m =>
      obtain ⟨hstatement, hdeclaration⟩ :=
        ih (by omega : eof < lo + 1 + m) (by omega : eof < lo + 1 + n)
      exact ⟨gives_anyStatement h hstatement hdeclaration hm hn,
        fun i hlo hi => gives_anyDeclaration h hstatement hdeclaration hm hn hlo hi,
        loud_declaration (n + 1)⟩

/-- A list of declarations ends at the end or at a closing token, not for lack of tokens. -/
theorem stop_front_rest (h : Ended tokens eof) (closed : Token → Bool)
    (hnested : NestedFrom tokens eof lo nested nested') (hlo : lo ≤ i) (hi : i ≤ eof)
    (hn : eof < i + n) :
    ((front (declarations nested' closed n (tokens.drop i)).rest).isEnd ||
      closed (front (declarations nested' closed n (tokens.drop i)).rest)) = true := by
  induction n generalizing i with
  | zero => omega
  | succ n ih =>
    cases hstops : (front (tokens.drop i)).isEnd || closed (front (tokens.drop i)) with
    | true => rwa [declarations_succ_of_stop hstops]
    | false =>
      obtain ⟨t, ht, hdrop⟩ := h.exists_front hi
      have hend : t.isEnd = false := by
        rw [hdrop] at hstops
        exact (Bool.or_eq_false_iff.mp hstops).1
      have hlt := h.lt_of_not_isEnd hi ht hend
      obtain ⟨j, -, -, hrest, hj, hsome, -⟩ := hnested.gives i hlo hlt
      have hij : i < j := hsome rfl
      have hnext : (declarations nested' closed (n + 1) (tokens.drop i)).rest =
          (declarations nested' closed n (tokens.drop j)).rest := by
        rw [declarations_succ_of_not_stop hstops,
          bind_apply_of_some (a := (nested' (tokens.drop i)).result) rfl, map_apply, hrest]
      rw [hnext]
      exact ih (by omega) hj (by omega)

end Statements

/-- A list without ends has its only end where one is appended. -/
theorem ended_append {ts : List Token} {last : Token} (hts : EndFree ts)
    (hlast : last.isEnd = true) : Ended (ts ++ [last]) ts.length where
  length_eq := by simp
  isEnd_iff := by
    intro i t ht
    rcases Nat.lt_or_ge i ts.length with hlt | hge
    · rw [List.getElem?_append_left hlt] at ht
      rw [hts t (List.mem_of_getElem? ht)]
      exact iff_of_false Bool.false_ne_true hlt.ne
    · rw [List.getElem?_append_right hge, List.getElem?_singleton] at ht
      split at ht
      · cases ht
        exact iff_of_true hlast (by omega)
      · cases ht

section Parsing

variable {ts : List Token} {last : Token} {fuel : Nat}

/-- Whether all tokens are taken is looked up at the index, as at the token in front. -/
theorem gives_parseExpression (hts : EndFree ts) (hlast : last.isEnd = true)
    (hfuel : ts.length < fuel) :
    Gives (ts ++ [last]) ts.length 0 1
      (do
        let e ← Indexed.expression fuel
        if ← Parser.isAtEnd then return e else Parser.fail (.expected .endOfExpression))
      (wholeExpression (ts ++ [last])) := by
  have h := ended_append hts hlast
  have hexpression : GivesFrom (ts ++ [last]) ts.length 0 (Indexed.expression fuel)
      (expression (ts ++ [last]).length) :=
    gives_expression h (by omega) (by simp)
  refine (hexpression 0 (Nat.le_refl 0) (Nat.zero_le _)).bind fun e j _ _ hj => ?_
  obtain ⟨t, ht, hdrop⟩ := h.exists_front hj
  have hpeek : (do if (← peek).isEnd then pure e else fail (.expected .endOfExpression) : Rule _)
      ((ts ++ [last]).drop j) =
        (if t.isEnd then pure e else fail (.expected .endOfExpression) : Rule _)
          ((ts ++ [last]).drop j) := by
    rw [hdrop]
    rfl
  rw [hpeek]
  refine .step (steps_isAtEnd ht) ?_
  cases t.isEnd with
  | true => exact .pure hj e
  | false => exact h.gives_fail hj _

/-- The whole parser gives the program that the grammar reads. -/
theorem gives_parse (hts : EndFree ts) (hlast : last.isEnd = true) (hfuel : ts.length < fuel) :
    Gives (ts ++ [last]) ts.length 0 ts.length
      (Indexed.declarations (Indexed.declaration fuel) Parser.isAtEnd fuel)
      ⟨some (program (ts ++ [last])).statements, (program (ts ++ [last])).errors,
        (program (ts ++ [last])).rest⟩ := by
  have h := ended_append hts hlast
  have hstop : StopsAt Parser.isAtEnd fun _ => false := by
    intro tokens i t ht
    rw [Bool.or_false]
    exact steps_isAtEnd ht
  have hnested : NestedFrom (ts ++ [last]) ts.length 0 (Indexed.declaration fuel)
      (declaration (ts ++ [last]).length) :=
    (gives_statement_declaration h (by omega) (by simp)).2
  have hlength : ts.length < 0 + (ts ++ [last]).length := by simp
  obtain ⟨j, events, hp, hrest, hj, -, hevents⟩ := gives_declarations h hstop hnested
    (Nat.le_refl 0) (Nat.zero_le _) (hfuel.trans_le (Nat.le_add_left _ _)) hlength
  have hend : j = ts.length := by
    obtain ⟨t, ht, hdrop⟩ := h.exists_front hj
    have hstops := stop_front_rest h (fun _ => false) hnested (Nat.le_refl 0) (Nat.zero_le _)
      hlength
    rw [hrest, hdrop, Bool.or_false] at hstops
    exact (h.isEnd_iff ht).mp hstops
  have hresult : (declarations (declaration (ts ++ [last]).length) (fun _ => false)
      (ts ++ [last]).length (ts ++ [last])).result = some (program (ts ++ [last])).statements := by
    obtain ⟨ss, hss⟩ := Option.ne_none_iff_exists'.mp (declarations_ne_none
      (declaration (ts ++ [last]).length) (fun _ => false) (ts ++ [last]).length (ts ++ [last]))
    rw [program, hss, Option.getD_some]
  refine ⟨j, events, ?_, hrest, hj, fun _ => hend.ge, hevents⟩
  rw [hp, List.drop_zero, hresult]
  rfl

/-- Every vector of tokens whose last token is its only end is parsed to the end, with as much fuel
    as it has tokens, for what the grammar finds in it. On the way the parser is never out of range
    and moves only forward. Every turn of a loop over declarations takes a token at least, and
    reports an error if it drops its declaration, so that without errors none is dropped. Also an
    expression is parsed, with as much fuel, without leaving the end behind. -/
theorem parse_total (hts : EndFree ts) (hlast : last.isEnd = true) (hfuel : ts.length < fuel) :
    (∃ events, Indexed.parse fuel (ts ++ [last]) =
        .ok ⟨some (program (ts ++ [last])).statements, (program (ts ++ [last])).errors, ts.length,
          events⟩ ∧
        Orderly 0 ts.length (program (ts ++ [last])).errors.length events ∧
        ((program (ts ++ [last])).errors = [] → ∀ start current reported kept,
          .turn start current reported kept ∈ events → kept = true)) ∧
      ∃ current events, Indexed.parseExpression fuel (ts ++ [last]) =
        .ok ⟨(wholeExpression (ts ++ [last])).result, (wholeExpression (ts ++ [last])).errors,
          current, events⟩ ∧
        current ≤ ts.length ∧
        Orderly 0 current (wholeExpression (ts ++ [last])).errors.length events := by
  refine ⟨?_, ?_⟩
  · obtain ⟨j, events, hp, -, hj, hsome, hevents⟩ := gives_parse hts hlast hfuel
    obtain rfl : j = ts.length := Nat.le_antisymm hj (hsome rfl)
    refine ⟨events, hp, hevents, fun hnone start current reported kept hturn => ?_⟩
    obtain ⟨-, hle, hdropped⟩ := hevents.sound _ hturn
    by_contra hkept
    have hpos := hdropped (Bool.not_eq_true _ ▸ hkept)
    rw [hnone] at hle
    exact Nat.not_succ_le_zero _ (hpos.trans_le hle)
  · obtain ⟨j, events, hp, -, hj, -, hevents⟩ := gives_parseExpression hts hlast hfuel
    exact ⟨j, events, hp, hj, hevents⟩

/-- Tokens of which no declaration can be read. -/
def garbage : List Token :=
  [⟨.punct .rightParen, ")", 1, 0⟩, ⟨.keyword .fun, "fun", 1, 2⟩, ⟨.punct .semicolon, ";", 1, 6⟩,
    ⟨.punct .rightBrace, "\x7d", 1, 8⟩]

/-- All of them are taken, and nothing is kept. -/
theorem parse_total_garbage :
    (EndFree garbage ∧ (Token.atEnd 1 9).isEnd = true ∧ garbage.length < 5) ∧
      ∃ errors events, Indexed.parse 5 (garbage ++ [.atEnd 1 9]) =
        .ok ⟨some [], errors, 4, events⟩ ∧ errors.length = 3 := by
  have hts : EndFree garbage := by simp [garbage, EndFree, Token.isEnd]
  have hlast : (Token.atEnd 1 9).isEnd = true := rfl
  have hfuel : garbage.length < 5 := by decide
  obtain ⟨⟨events, hparse, -⟩, -⟩ := parse_total hts hlast hfuel
  exact ⟨⟨hts, hlast, hfuel⟩, _, events, hparse, by decide +kernel⟩

end Parsing

end Grammar

end Lox
