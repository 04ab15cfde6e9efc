import Lox.Proofs.Grammar.Expression.Soundness

namespace Lox.Grammar

open Rule

variable {inner : Rule (Expr Unit)} {n count : Nat} {ts rest : List Token}

/-- How tightly a token ties what stands in front of it to what follows. -/
def strength (t : Token) : Nat :=
  match t.kind with
  | .punct .equal => 1
  | .keyword .or => 2
  | .keyword .and => 3
  | .punct .bangEqual | .punct .equalEqual => 4
  | .punct .greater | .punct .greaterEqual | .punct .less | .punct .lessEqual => 5
  | .punct .minus | .punct .plus => 6
  | .punct .slash | .punct .star => 7
  | .punct .leftParen => 8
  | _ => 0

/-- Weaker tokens than this end the phrase. -/
def Phrase.level : Phrase → Nat
  | expression => 1
  | tier .disjunction => 2
  | tier .conjunction => 3
  | tier .equality => 4
  | tier .comparison => 5
  | tier .sum => 6
  | tier .product => 7
  | unary => 8
  | call => 8
  | primary => 9

/-- The operands of a tier bind one step more tightly than the tier itself. -/
theorem Tier.level_operand (t : Tier) : t.operand.level = (Phrase.tier t).level + 1 := by
  cases t <;> rfl

/-- The operators of a tier are the tokens of its strength. -/
theorem Tier.isOperator_iff {t : Tier} {token : Token} :
    t.isOperator token = true ↔ strength token = (Phrase.tier t).level := by
  obtain ⟨kind, _, _, _⟩ := token
  cases kind with
  | punct p =>
    cases t <;> cases p <;>
      simp [isOperator, Token.isPunct, Token.isKeyword, strength, Phrase.level]
  | keyword k =>
    cases t <;> cases k <;>
      simp [isOperator, Token.isPunct, Token.isKeyword, strength, Phrase.level]
  | _ => cases t <;> simp [isOperator, Token.isPunct, Token.isKeyword, strength, Phrase.level]

theorem strength_of_leftParen {t : Token} (h : t.isPunct .leftParen) : strength t = 8 := by
  simp [strength, Token.isPunct_iff.mp h]

theorem strength_of_equal {t : Token} (h : t.isPunct .equal) : strength t = 1 := by
  simp [strength, Token.isPunct_iff.mp h]

theorem forall_head?_of_front {test : Token → Bool} (h : test (front ts) = false) :
    ∀ t ∈ ts.head?, test t = false := by
  cases ts with
  | nil => simp
  | cons t us => simpa [front] using h

/-- The tokens with which an expression can begin. -/
def startsExpression (t : Token) : Bool :=
  match t.kind with
  | .keyword .false | .keyword .true | .keyword .nil | .number _ | .string _ | .identifier
  | .punct .leftParen | .punct .bang | .punct .minus => true
  | _ => false

/-- A sign begins neither a call nor what is called. -/
theorem Phrase.Derives.exists_first {p : Phrase} {e : Expr Unit} (h : p.Derives ts e) :
    ∃ t us, ts = t :: us ∧ startsExpression t ∧
      (p = .call ∨ p = .primary → (t.isPunct .bang || t.isPunct .minus) = false) := by
  induction h with
  | assignment hname _ _ _ =>
    exact ⟨_, _, rfl, by simp [startsExpression, Token.isIdentifier_iff.mp hname], by simp⟩
  | disjunction _ ih =>
    obtain ⟨t, us, rfl, hstart, -⟩ := ih
    exact ⟨t, us, rfl, hstart, by simp⟩
  | operand _ ih =>
    obtain ⟨t, us, rfl, hstart, -⟩ := ih
    exact ⟨t, us, rfl, hstart, by simp⟩
  | operation _ _ _ ih _ =>
    obtain ⟨t, us, rfl, hstart, -⟩ := ih
    exact ⟨t, _, rfl, hstart, by simp⟩
  | @signed operator _ _ hoperator _ _ =>
    refine ⟨_, _, rfl, ?_, by simp⟩
    simp only [Bool.or_eq_true, Token.isPunct_iff] at hoperator
    rcases hoperator with hkind | hkind <;> simp [startsExpression, hkind]
  | unsigned _ ih =>
    obtain ⟨t, us, rfl, hstart, -⟩ := ih
    exact ⟨t, us, rfl, hstart, by simp⟩
  | callee _ ih =>
    obtain ⟨t, us, rfl, hstart, hsign⟩ := ih
    exact ⟨t, us, rfl, hstart, fun _ => hsign (.inr rfl)⟩
  | application _ _ _ _ _ _ ih _ =>
    obtain ⟨t, us, rfl, hstart, hsign⟩ := ih
    exact ⟨t, _, rfl, hstart, fun _ => hsign (.inl rfl)⟩
  | falsity h | truth h | nil h =>
    rw [Token.isKeyword_iff] at h
    exact ⟨_, _, rfl, by simp [startsExpression, h], by simp [Token.isPunct, h]⟩
  | number h | string h =>
    exact ⟨_, _, rfl, by simp [startsExpression, h], by simp [Token.isPunct, h]⟩
  | «variable» h =>
    rw [Token.isIdentifier_iff] at h
    exact ⟨_, _, rfl, by simp [startsExpression, h], by simp [Token.isPunct, h]⟩
  | grouping h _ _ _ =>
    rw [Token.isPunct_iff] at h
    exact ⟨_, _, rfl, by simp [startsExpression, h], by simp [Token.isPunct, h]⟩

/-- The rule for a phrase reads these tokens as this tree wherever the token behind them lets the
    phrase end. The bounds are numbers of tokens, as for the rules. -/
def Phrase.Complete (p : Phrase) (ts : List Token) (e : Expr Unit) : Prop :=
  ∀ ⦃m n rest⦄, (ts ++ rest).length ≤ m + 1 → (ts ++ rest).length ≤ n →
    strength (front rest) < p.level →
      (phraseRule (Grammar.expression m) n p).Reads (ts ++ rest) e rest

/-- The rule reads these tokens and goes on with its operators. -/
def Tier.Continues (t : Tier) (ts : List Token) (e : Expr Unit) : Prop :=
  ∀ ⦃m n rest⦄, (ts ++ rest).length ≤ m + 1 → (ts ++ rest).length ≤ n →
    strength (front rest) ≤ (Phrase.tier t).level →
    ∃ k, rest.length ≤ k ∧ ∀ ⦃e' rest'⦄,
      (chain t.node t.isOperator (phraseRule (expression m) n t.operand) k e).Reads rest e' rest' →
      (phraseRule (expression m) n (.tier t)).Reads (ts ++ rest) e' rest'

/-- The rule reads these tokens and goes on with the calls behind them. -/
def CallContinues (ts : List Token) (e : Expr Unit) : Prop :=
  ∀ ⦃m n rest⦄, (ts ++ rest).length ≤ m + 1 → (ts ++ rest).length ≤ n →
    ∃ k, rest.length ≤ k ∧ ∀ ⦃e' rest'⦄, (calls (expression m) k e).Reads rest e' rest' →
      (call (expression m) n).Reads (ts ++ rest) e' rest'

/-- A chain ends in front of a token that binds less tightly. -/
theorem reads_chain_of_weak {t : Tier} {operand : Rule (Expr Unit)} {e : Expr Unit}
    (h : strength (front rest) < (Phrase.tier t).level) :
    (chain t.node t.isOperator operand n e).Reads rest e rest := by
  cases n with
  | zero => exact reads_pure_iff.mpr ⟨rfl, rfl⟩
  | succ n =>
    refine reads_chain_succ_iff.mpr (.inr ⟨forall_head?_of_front ?_, rfl, rfl⟩)
    rw [← Bool.not_eq_true, Tier.isOperator_iff]
    omega

/-- A chain that has come to the end of its tokens is read. -/
theorem Tier.Continues.complete {t : Tier} {e : Expr Unit} (h : t.Continues ts e) :
    (Phrase.tier t).Complete ts e := by
  intro m n rest hm hn hrest
  obtain ⟨k, -, hreads⟩ := h hm hn (by omega)
  exact hreads (reads_chain_of_weak hrest)

/-- A call that has come to the end of its tokens is read. -/
theorem CallContinues.complete {e : Expr Unit} (h : CallContinues ts e) :
    Phrase.call.Complete ts e := by
  intro m n rest hm hn hrest
  obtain ⟨k, -, hreads⟩ := h hm hn
  refine hreads ?_
  cases k with
  | zero => exact reads_pure_iff.mpr ⟨rfl, rfl⟩
  | succ k =>
    refine reads_calls_succ_iff.mpr (.inr ⟨forall_head?_of_front ?_, rfl, rfl⟩)
    rw [← Bool.not_eq_true]
    intro hopen
    rw [strength_of_leftParen hopen] at hrest
    exact absurd hrest (by decide)

/-- An expression inside another one. -/
theorem Phrase.Complete.reads_expression {e : Expr Unit} (h : Phrase.expression.Complete ts e)
    (hn : (ts ++ rest).length ≤ n) (hpos : 0 < (ts ++ rest).length)
    (hrest : strength (front rest) = 0) : (Grammar.expression n).Reads (ts ++ rest) e rest := by
  cases n with
  | zero => omega
  | succ n => exact h hn hn (by simp [hrest, level])

/-- Arguments that are separated by commas are read up to the closing parenthesis. -/
theorem arguments_complete {m : Nat} {us : List Token} {closeParen : Token}
    {parts : List (List Token × Expr Unit)}
    (hparts : ∀ part ∈ parts, Phrase.expression.Complete part.1 part.2)
    (hseparated : Separated (parts.map Prod.fst) us) (hne : parts ≠ [])
    (hclose : closeParen.isPunct .rightParen) (hlimit : count + parts.length ≤ maxArguments)
    (hm : (us ++ closeParen :: rest).length ≤ m) (hn : (us ++ closeParen :: rest).length ≤ n) :
    (arguments (expression m) n count).Reads (us ++ closeParen :: rest) (parts.map Prod.snd)
      (closeParen :: rest) := by
  have hkind := Token.isPunct_iff.mp hclose
  induction parts generalizing us n count with
  | nil => exact absurd rfl hne
  | cons part others ih =>
    obtain ⟨n, rfl⟩ : ∃ k, n = k + 1 := by
      simp only [List.length_append, List.length_cons] at hn
      exact Nat.exists_eq_succ_of_ne_zero (by omega)
    have hfirst := hparts part (by simp)
    refine reads_arguments_succ_iff.mpr ⟨by simp only [List.length_cons] at hlimit; omega, ?_⟩
    cases others with
    | nil =>
      cases hseparated
      refine ⟨part.2, closeParen :: rest, hfirst.reads_expression hm (by simp) ?_,
        .inr ⟨?_, rfl, rfl⟩⟩
      · simp [front, strength, hkind]
      · simp [Token.isPunct, hkind]
    | cons other others =>
      cases hseparated with
      | @more _ _ within _ comma hcomma hwithin =>
        have hcommaKind := Token.isPunct_iff.mp hcomma
        simp only [List.append_assoc, List.cons_append] at hm hn ⊢
        refine ⟨part.2, comma :: (within ++ closeParen :: rest),
          hfirst.reads_expression hm (by simp) ?_, .inl ⟨comma, _, _, rfl, hcomma, ?_, rfl⟩⟩
        · simp [front, strength, hcommaKind]
        · simp only [List.length_append, List.length_cons] at hm hn
          refine ih (fun part hpart => hparts part (by simp [hpart])) hwithin (by simp) ?_ ?_ ?_
          · simp only [List.length_cons] at hlimit ⊢
            omega
          · simp only [List.length_append, List.length_cons]
            omega
          · simp only [List.length_append, List.length_cons]
            omega

/-- What a derivation of a phrase means for its rule. Chains and calls are followed by their rest,
    because a derivation of them grows at the right and their rules start at the left. -/
def Phrase.Goal (p : Phrase) (ts : List Token) (e : Expr Unit) : Prop :=
  match p with
  | .tier t => t.Continues ts e
  | .call => CallContinues ts e
  | p => p.Complete ts e

/-- What a derivation means for its rule makes the rule complete. -/
theorem Phrase.Goal.complete {p : Phrase} {e : Expr Unit} (h : p.Goal ts e) : p.Complete ts e := by
  cases p with
  | tier t => exact Tier.Continues.complete h
  | call => exact CallContinues.complete h
  | expression | unary | primary => exact h

theorem Separated.exists_first {piece us : List Token} {pieces : List (List Token)} {t : Token}
    (h : Separated ((t :: piece) :: pieces) us) : ∃ vs, us = t :: vs := by
  cases h with
  | one => exact ⟨piece, rfl⟩
  | more => exact ⟨_, rfl⟩

theorem strength_le (t : Token) : strength t ≤ 8 := by
  unfold strength
  split <;> omega

/-- A primary expression may be called. -/
theorem callContinues_of_primary {e : Expr Unit} (h : Phrase.primary.Complete ts e) :
    CallContinues ts e := by
  intro m n rest hm hn
  refine ⟨n, by simp only [List.length_append] at hn; omega, fun e' rest' hcalls => ?_⟩
  have hprimary := h hm hn (Nat.lt_succ_of_le (strength_le _))
  exact reads_bind_iff.mpr ⟨e, rest, hprimary, hcalls⟩

/-- What is called may be called again. -/
theorem CallContinues.application {us : List Token} {openParen closeParen : Token}
    {callee : Expr Unit} {parts : List (List Token × Expr Unit)} (hcallee : CallContinues ts callee)
    (hopen : openParen.isPunct .leftParen)
    (hderives : ∀ part ∈ parts, Phrase.expression.Derives part.1 part.2)
    (hparts : ∀ part ∈ parts, Phrase.expression.Complete part.1 part.2)
    (hseparated : Separated (parts.map Prod.fst) us) (hlimit : parts.length ≤ maxArguments)
    (hclose : closeParen.isPunct .rightParen) :
    CallContinues (ts ++ openParen :: (us ++ [closeParen]))
      (.call callee closeParen (parts.map Prod.snd)) := by
  intro m n rest hm hn
  simp only [List.append_assoc, List.cons_append, List.nil_append] at hm hn ⊢
  obtain ⟨k, hk, hreads⟩ := hcallee hm hn
  simp only [List.length_append, List.length_cons] at hm hn hk
  obtain ⟨k, rfl⟩ : ∃ j, k = j + 1 := Nat.exists_eq_succ_of_ne_zero (by omega)
  refine ⟨k, by omega, fun e' rest' hcalls => hreads (reads_calls_succ_iff.mpr (.inl ?_))⟩
  refine ⟨openParen, us ++ closeParen :: rest, parts.map Prod.snd, closeParen, rest, rfl, hopen,
    hclose, ?_, hcalls⟩
  cases parts with
  | nil =>
    cases hseparated
    exact .inl ⟨rfl, rfl⟩
  | cons part others =>
    refine .inr ⟨?_, ?_⟩
    · obtain ⟨t, piece, hpiece, hstart, -⟩ := (hderives part (by simp)).exists_first
      rw [List.map_cons, hpiece] at hseparated
      obtain ⟨vs, rfl⟩ := hseparated.exists_first
      rw [← Bool.not_eq_true, List.cons_append, front, Token.isPunct_iff]
      intro hkind
      simp [startsExpression, hkind] at hstart
    · refine arguments_complete hparts hseparated (by simp) hclose (by simpa using hlimit) ?_ ?_
      · simp only [List.length_append, List.length_cons]
        omega
      · simp only [List.length_append, List.length_cons]
        omega

/-- A call is read as a unary expression. -/
theorem unary_complete_of_call {e : Expr Unit} (hderives : Phrase.call.Derives ts e)
    (h : Phrase.call.Complete ts e) : Phrase.unary.Complete ts e := by
  intro m n rest hm hn hrest
  have hcall := h hm hn hrest
  cases n with
  | zero => exact hcall
  | succ n =>
    obtain ⟨t, us, rfl, -, hsign⟩ := hderives.exists_first
    exact reads_unary_succ_iff.mpr (.inr ⟨by simpa using hsign (.inl rfl), hcall⟩)

/-- A prefix operator is read with its operand. -/
theorem unary_complete_signed {operator : Token} {e : Expr Unit}
    (hoperator : operator.isPunct .bang || operator.isPunct .minus)
    (h : Phrase.unary.Complete ts e) :
    Phrase.unary.Complete (operator :: ts) (.unary operator e) := by
  intro m n rest hm hn hrest
  simp only [List.cons_append, List.length_cons] at hm hn
  obtain ⟨n, rfl⟩ : ∃ k, n = k + 1 := Nat.exists_eq_succ_of_ne_zero (by omega)
  have hoperand := h (m := m) (n := n) (by omega) (by omega) hrest
  exact reads_unary_succ_iff.mpr (.inl ⟨operator, _, e, rfl, hoperator, hoperand, rfl⟩)

/-- An operand alone may be continued by operators of its tier. -/
theorem Tier.continues_operand {t : Tier} {e : Expr Unit} (h : t.operand.Complete ts e) :
    t.Continues ts e := by
  intro m n rest hm hn hrest
  refine ⟨n, by simp only [List.length_append] at hn; omega, fun e' rest' hchain => ?_⟩
  have hoperand := h hm hn (by rw [level_operand]; omega)
  rw [phraseRule_tier]
  exact reads_bind_iff.mpr ⟨e, rest, hoperand, hchain⟩

/-- A chain may be continued by one operator and operand more. -/
theorem Tier.Continues.operation {t : Tier} {us : List Token} {operator : Token}
    {left right : Expr Unit} (hleft : t.Continues ts left) (hoperator : t.isOperator operator)
    (hright : t.operand.Complete us right) :
    t.Continues (ts ++ operator :: us) (t.node left operator right) := by
  intro m n rest hm hn hrest
  simp only [List.append_assoc, List.cons_append] at hm hn ⊢
  obtain ⟨k, hk, hreads⟩ := hleft hm hn (by simp [front, isOperator_iff.mp hoperator])
  simp only [List.length_append, List.length_cons] at hm hn hk
  obtain ⟨k, rfl⟩ : ∃ j, k = j + 1 := Nat.exists_eq_succ_of_ne_zero (by omega)
  refine ⟨k, by omega, fun e' rest' hchain => hreads (reads_chain_succ_iff.mpr (.inl ?_))⟩
  refine ⟨operator, us ++ rest, right, rest, rfl, hoperator, ?_, hchain⟩
  refine hright ?_ ?_ (by rw [level_operand]; omega)
  · simp only [List.length_append]
    omega
  · simp only [List.length_append]
    omega

/-- A name alone is read at every level. -/
theorem disjunction_complete_variable {name : Token}
    (h : Phrase.primary.Derives [name] (.var () name))
    (hname : Phrase.primary.Complete [name] (.var () name)) :
    (Phrase.tier .disjunction).Complete [name] (.var () name) := by
  have hcall := (callContinues_of_primary hname).complete
  have hunary := unary_complete_of_call (.callee h) hcall
  have hproduct := (Tier.continues_operand (t := .product) hunary).complete
  have hsum := (Tier.continues_operand (t := .sum) hproduct).complete
  have hcomparison := (Tier.continues_operand (t := .comparison) hsum).complete
  have hequality := (Tier.continues_operand (t := .equality) hcomparison).complete
  have hconjunction := (Tier.continues_operand (t := .conjunction) hequality).complete
  exact (Tier.continues_operand (t := .disjunction) hconjunction).complete

theorem primary_complete_variable {name : Token} (hname : name.isIdentifier) :
    Phrase.primary.Complete [name] (.var () name) := by
  intro m n rest _ _ _
  refine reads_bind_iff.mpr ⟨name, name :: rest, reads_peek_iff.mpr ⟨rfl, rfl⟩, ?_⟩
  rw [Token.isIdentifier_iff.mp hname]
  exact reads_take_pure_iff.mpr ⟨rfl, rfl⟩

/-- An expression in parentheses is read as a primary one. -/
theorem primary_complete_grouping {openParen closeParen : Token} {e : Expr Unit}
    (hopen : openParen.isPunct .leftParen) (h : Phrase.expression.Complete ts e)
    (hclose : closeParen.isPunct .rightParen) :
    Phrase.primary.Complete (openParen :: (ts ++ [closeParen])) (.grouping e) := by
  intro m n rest hm hn _
  simp only [List.cons_append, List.append_assoc, List.nil_append, List.length_cons,
    List.length_append] at hm hn ⊢
  refine reads_bind_iff.mpr ⟨openParen, _, reads_peek_iff.mpr ⟨rfl, rfl⟩, ?_⟩
  rw [Token.isPunct_iff.mp hopen]
  refine reads_bind_iff.mpr ⟨openParen, ts ++ closeParen :: rest,
    reads_take_iff.mpr ⟨rfl, rfl⟩, reads_bind_iff.mpr ⟨e, closeParen :: rest, ?_, ?_⟩⟩
  · refine h.reads_expression ?_ (by simp) ?_
    · simp only [List.length_append, List.length_cons]
      omega
    · simp [front, strength, Token.isPunct_iff.mp hclose]
  · exact reads_bind_iff.mpr ⟨closeParen, rest, reads_expect_iff.mpr ⟨rfl, hclose⟩,
      reads_pure_iff.mpr ⟨rfl, rfl⟩⟩

/-- An assignment is read with everything behind the equals sign as its value. -/
theorem expression_complete_assignment {name equals : Token} {value : Expr Unit}
    (hname : name.isIdentifier) (hequals : equals.isPunct .equal)
    (hderives : Phrase.expression.Derives ts value) (hvalue : Phrase.expression.Complete ts value) :
    Phrase.expression.Complete (name :: equals :: ts) (.assign () name value) := by
  intro m n rest hm hn hrest
  have htarget := disjunction_complete_variable (.variable hname) (primary_complete_variable hname)
  simp only [List.cons_append, List.length_cons] at hm hn
  refine reads_assignment_iff.mpr (.inl ⟨name, equals, ts ++ rest, value, ?_, hequals, ?_, rfl⟩)
  · refine @htarget m n (equals :: (ts ++ rest)) ?_ ?_ ?_
    · simpa using hm
    · simpa using hn
    · simp [front, strength_of_equal hequals, Phrase.level]
  · obtain ⟨t, us, rfl, -⟩ := hderives.exists_first
    exact hvalue.reads_expression (by omega) (by simp) (by simpa [Phrase.level] using hrest)

/-- An expression that is no assignment is read as a disjunction. -/
theorem expression_complete_disjunction {e : Expr Unit}
    (h : (Phrase.tier .disjunction).Complete ts e) : Phrase.expression.Complete ts e := by
  intro m n rest hm hn hrest
  refine reads_assignment_iff.mpr
    (.inr ⟨h hm hn (Nat.lt_succ_of_lt hrest), forall_head?_of_front ?_⟩)
  rw [← Bool.not_eq_true]
  intro hequals
  rw [strength_of_equal hequals] at hrest
  exact absurd hrest (by decide)

/-- Every derivation is read by the rule of its phrase. -/
theorem Phrase.Derives.goal {p : Phrase} {e : Expr Unit} (h : p.Derives ts e) : p.Goal ts e := by
  induction h with
  | assignment hname hequals h ih => exact expression_complete_assignment hname hequals h ih
  | disjunction _ ih => exact expression_complete_disjunction ih.complete
  | operand _ ih => exact Tier.continues_operand ih.complete
  | operation _ hoperator _ ihleft ihright => exact ihleft.operation hoperator ihright.complete
  | signed hoperator _ ih => exact unary_complete_signed hoperator ih
  | unsigned h ih => exact unary_complete_of_call h ih.complete
  | callee _ ih => exact callContinues_of_primary ih
  | application _ hopen hparts hseparated hlimit hclose ih ihparts =>
    exact ih.application hopen hparts ihparts hseparated hlimit hclose
  | falsity h | truth h | nil h =>
    intro m n rest _ _ _
    refine reads_bind_iff.mpr ⟨_, _, reads_peek_iff.mpr ⟨rfl, rfl⟩, ?_⟩
    rw [List.singleton_append, front, Token.isKeyword_iff.mp h]
    exact reads_take_pure_iff.mpr ⟨rfl, rfl⟩
  | number h | string h =>
    intro m n rest _ _ _
    refine reads_bind_iff.mpr ⟨_, _, reads_peek_iff.mpr ⟨rfl, rfl⟩, ?_⟩
    rw [List.singleton_append, front, h]
    exact reads_take_pure_iff.mpr ⟨rfl, rfl⟩
  | «variable» hname => exact primary_complete_variable hname
  | grouping hopen _ hclose ih => exact primary_complete_grouping hopen ih hclose

/-- An expression is read up to a token that ties nothing to it. -/
theorem expression_complete {e : Expr Unit} (h : Phrase.expression.Derives ts e)
    (hn : (ts ++ rest).length ≤ n) (hrest : strength (front rest) = 0) :
    (expression n).Reads (ts ++ rest) e rest := by
  obtain ⟨t, us, rfl, -⟩ := h.exists_first
  exact h.goal.complete.reads_expression hn (by simp) hrest

end Lox.Grammar
