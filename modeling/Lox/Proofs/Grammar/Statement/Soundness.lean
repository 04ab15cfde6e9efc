import Lox.Proofs.Grammar.Expression.Soundness
import Lox.Proofs.Grammar.Statement.Reading

namespace Lox.Grammar

open Rule

variable {nested other : Rule (Stmt Unit)} {n count : Nat} {ts rest : List Token}

/-- Whatever the rule reads cleanly is derived, with each `else` belonging to the nearest `if`, and
    is not cut off in front of an `else` that it could take. -/
def Category.Sound (c : Category) (r : Rule (Stmt Unit)) : Prop :=
  ∀ ⦃ts s rest⦄, r.Reads ts s rest → ∃ taken dangling, ts = taken ++ rest ∧
    c.Derives true taken s dangling ∧
    (dangling = true → (front rest).isKeyword .else = false)

theorem optionalExpression_sound (n : Nat) (close : Punct) :
    (optionalExpression n close).Sound DerivesOptional := by
  intro ts value rest h
  obtain ⟨-, rfl, rfl⟩ | ⟨-, e, he, rfl⟩ := reads_optionalExpression_iff.mp h
  · exact ⟨[], rfl, .absent⟩
  · obtain ⟨taken, htaken, hderives⟩ := expression_sound n he
    exact ⟨taken, htaken, .present hderives⟩

theorem varDeclaration_sound (n : Nat) : (varDeclaration n).Sound DerivesVariable := by
  intro ts s rest h
  obtain ⟨name, semicolon, rfl, hname, hsemicolon, rfl⟩ |
    ⟨name, equals, us, e, semicolon, rfl, hname, hequals, he, hsemicolon, rfl⟩ :=
    reads_varDeclaration_iff.mp h
  · exact ⟨[name, semicolon], rfl, .plain hname hsemicolon⟩
  · obtain ⟨taken, rfl, hderives⟩ := expression_sound n he
    exact ⟨name :: equals :: (taken ++ [semicolon]), by simp,
      .initialized hname hequals hderives hsemicolon⟩

/-- Declarations that are read are derived one by one, none being dropped. -/
theorem declarations_sound {closed : Token → Bool} (hloud : nested.Loud)
    (hnested : Category.declaration.Sound nested) {ss : List (Stmt Unit)}
    (h : (declarations nested closed n).Reads ts ss rest) :
    ∃ parts : List Part, ts = parts.flatMap Part.tokens ++ rest ∧ ss = parts.map Part.tree ∧
      ∀ part ∈ parts, Category.declaration.Derives true part.tokens part.tree part.dangling := by
  induction n generalizing ts ss with
  | zero =>
    obtain ⟨rfl, rfl⟩ := reads_pure_iff.mp h
    exact ⟨[], rfl, rfl, by simp⟩
  | succ n ih =>
    obtain ⟨-, rfl, rfl⟩ | ⟨-, s, middle, others, hs, hothers, rfl⟩ :=
      (reads_declarations_succ_iff hloud).mp h
    · exact ⟨[], rfl, rfl, by simp⟩
    · obtain ⟨taken, dangling, rfl, hderives, -⟩ := hnested hs
      obtain ⟨parts, rfl, rfl, hparts⟩ := ih hothers
      exact ⟨⟨taken, s, dangling⟩ :: parts, by simp, rfl, by simpa using ⟨hderives, hparts⟩⟩

/-- A block that is read is derived up to its closing brace. -/
theorem block_sound (hloud : nested.Loud) (hnested : Category.declaration.Sound nested)
    {ss : List (Stmt Unit)} (h : (block nested n).Reads ts ss rest) :
    ∃ (parts : List Part) (closeBrace : Token),
      ts = parts.flatMap Part.tokens ++ closeBrace :: rest ∧ ss = parts.map Part.tree ∧
      closeBrace.isPunct .rightBrace ∧
      ∀ part ∈ parts, Category.declaration.Derives true part.tokens part.tree part.dangling := by
  simp only [block, reads_bind_iff, reads_expect_iff, reads_pure_iff] at h
  obtain ⟨_, _, hbody, closeBrace, _, ⟨rfl, hclose⟩, rfl, rfl⟩ := h
  obtain ⟨parts, rfl, rfl, hparts⟩ := declarations_sound hloud hnested hbody
  exact ⟨parts, closeBrace, rfl, rfl, hclose, hparts⟩

/-- Parameters that are read are names, separated by commas, within the limit. -/
theorem parameters_sound {params : List Token} (h : (parameters n count).Reads ts params rest) :
    ∃ taken, ts = taken ++ rest ∧ Separated (params.map fun p => [p]) taken ∧ params ≠ [] ∧
      (∀ p ∈ params, p.isIdentifier) ∧ count + params.length ≤ maxArguments := by
  induction n generalizing count ts params with
  | zero => exact absurd h not_reads_fail
  | succ n ih =>
    obtain ⟨hcount, p, middle, rfl, hp, hmore | ⟨-, rfl, rfl⟩⟩ := reads_parameters_succ_iff.mp h
    · obtain ⟨comma, us, others, rfl, hcomma, hothers, rfl⟩ := hmore
      obtain ⟨taken, rfl, hseparated, hne, hidentifiers, hlimit⟩ := ih hothers
      obtain ⟨q, params, rfl⟩ := List.exists_cons_of_ne_nil hne
      refine ⟨[p] ++ comma :: taken, by simp, .more hcomma hseparated, by simp, ?_, ?_⟩
      · simpa using ⟨hp, by simpa using hidentifiers⟩
      · simp only [List.length_cons] at hlimit ⊢
        omega
    · exact ⟨[p], rfl, .one, by simp, by simpa using hp, by simpa using hcount⟩

/-- A function that is read is derived. -/
theorem function_sound (hloud : nested.Loud) (hnested : Category.declaration.Sound nested)
    {keyword : Token} (hkeyword : keyword.isKeyword .fun) {s : Stmt Unit}
    (h : (function nested n).Reads ts s rest) :
    ∃ taken, ts = taken ++ rest ∧
      Category.declaration.Derives true (keyword :: taken) s false := by
  obtain ⟨name, openParen, us, params, closeParen, openBrace, vs, body, rfl, hname, hopen, hparams,
    hclose, hopenBrace, hbody, rfl⟩ := reads_function_iff.mp h
  obtain ⟨parts, closeBrace, rfl, rfl, hcloseBrace, hparts⟩ := block_sound hloud hnested hbody
  obtain ⟨taken, rfl, hseparated, hidentifiers, hlimit⟩ :
      ∃ taken, us = taken ++ closeParen :: openBrace ::
          (parts.flatMap Part.tokens ++ closeBrace :: rest) ∧
        Separated (params.map fun p => [p]) taken ∧ (∀ p ∈ params, p.isIdentifier) ∧
        params.length ≤ maxArguments := by
    rcases hparams with ⟨rfl, rfl⟩ | ⟨-, hparams⟩
    · exact ⟨[], rfl, .none, by simp, by simp⟩
    · obtain ⟨taken, hus, hseparated, -, hidentifiers, hlimit⟩ := parameters_sound hparams
      exact ⟨taken, hus, hseparated, hidentifiers, by omega⟩
  refine ⟨name :: openParen :: (taken ++ closeParen :: openBrace ::
    (parts.flatMap Part.tokens ++ [closeBrace])), by simp, ?_⟩
  exact .function hkeyword hname hopen hidentifiers hlimit hseparated hclose hopenBrace hparts
    hcloseBrace

/-- An initializer that is read is derived. -/
theorem initializer_sound {initializer : Option (Stmt Unit)}
    (h : ReadsInitializer n ts initializer rest) :
    ∃ taken, ts = taken ++ rest ∧ DerivesInitializer taken initializer := by
  rcases h with ⟨semicolon, rfl, hsemicolon, rfl⟩ |
    ⟨keyword, us, first, rfl, hkeyword, hfirst, rfl⟩ | ⟨-, first, hfirst, rfl⟩
  · exact ⟨[semicolon], rfl, .absent hsemicolon⟩
  · obtain ⟨taken, rfl, hderives⟩ := varDeclaration_sound n hfirst
    exact ⟨keyword :: taken, rfl, .variable hkeyword hderives⟩
  · obtain ⟨e, semicolon, he, hsemicolon, rfl⟩ := reads_expressionStatement_iff.mp hfirst
    obtain ⟨taken, rfl, hderives⟩ := expression_sound n he
    exact ⟨taken ++ [semicolon], by simp, .expression hderives hsemicolon⟩

/-- A loop that is read is derived from its clauses. -/
theorem forStatement_sound (hother : Category.statement.Sound other) {keyword : Token}
    (hkeyword : keyword.isKeyword .for) {s : Stmt Unit}
    (h : (forStatement other n).Reads ts s rest) :
    ∃ taken dangling, ts = taken ++ rest ∧
      Category.statement.Derives true (keyword :: taken) s dangling ∧
      (dangling = true → (front rest).isKeyword .else = false) := by
  obtain ⟨openParen, us, initializer, vs, condition, semicolon, ws, increment, closeParen, xs, body,
    rfl, hopen, hreadFirst, hreadCondition, hsemicolon, hreadIncrement, hclose, hreadBody, rfl⟩ :=
    reads_forStatement_iff.mp h
  obtain ⟨first, rfl, hfirst⟩ := initializer_sound hreadFirst
  obtain ⟨conditionTokens, rfl, hcondition⟩ := optionalExpression_sound n _ hreadCondition
  obtain ⟨incrementTokens, rfl, hincrement⟩ := optionalExpression_sound n _ hreadIncrement
  obtain ⟨bodyTokens, dangling, rfl, hbody, helse⟩ := hother hreadBody
  refine ⟨openParen :: (first ++ (conditionTokens ++ semicolon ::
    (incrementTokens ++ closeParen :: bodyTokens))), dangling, by simp, ?_, helse⟩
  exact .for hkeyword hopen hfirst hcondition hsemicolon hincrement hclose hbody

/-- The branch in front of an `else` could not have taken it. -/
theorem ifStatement_sound (hother : Category.statement.Sound other) {keyword : Token}
    (hkeyword : keyword.isKeyword .if) {s : Stmt Unit}
    (h : (ifStatement other n).Reads ts s rest) :
    ∃ taken dangling, ts = taken ++ rest ∧
      Category.statement.Derives true (keyword :: taken) s dangling ∧
      (dangling = true → (front rest).isKeyword .else = false) := by
  obtain ⟨openParen, us, e, closeParen, vs, thenBranch, middle, rfl, hopen, hreadCondition, hclose,
    hreadThen, hmore⟩ := reads_ifStatement_iff.mp h
  obtain ⟨condition, rfl, hcondition⟩ := expression_sound n hreadCondition
  obtain ⟨thenTokens, inside, rfl, hthen, hinside⟩ := hother hreadThen
  rcases hmore with ⟨keywordElse, ws, elseBranch, rfl, helse, hreadElse, rfl⟩ | ⟨helse, rfl, rfl⟩
  · obtain ⟨elseTokens, dangling, rfl, hbranch, hdangling⟩ := hother hreadElse
    refine ⟨openParen :: (condition ++ closeParen :: (thenTokens ++ keywordElse :: elseTokens)),
      dangling, by simp, ?_, hdangling⟩
    refine .ifElse hkeyword hopen hcondition hclose hthen (fun _ => ?_) helse hbranch
    by_contra hnot
    have hfront := hinside (by simpa using hnot)
    rw [front, helse] at hfront
    cases hfront
  · refine ⟨openParen :: (condition ++ closeParen :: thenTokens), true, by simp,
      .ifThen hkeyword hopen hcondition hclose hthen, fun _ => ?_⟩
    cases rest with
    | nil => rfl
    | cons t rest => simpa [front] using helse

theorem whileStatement_sound (hother : Category.statement.Sound other) {keyword : Token}
    (hkeyword : keyword.isKeyword .while) {s : Stmt Unit}
    (h : (whileStatement other n).Reads ts s rest) :
    ∃ taken dangling, ts = taken ++ rest ∧
      Category.statement.Derives true (keyword :: taken) s dangling ∧
      (dangling = true → (front rest).isKeyword .else = false) := by
  simp only [whileStatement, reads_bind_iff, reads_expect_iff, reads_pure_iff] at h
  obtain ⟨openParen, us, ⟨rfl, hopen⟩, e, _, hreadCondition, closeParen, vs, ⟨rfl, hclose⟩, body, _,
    hreadBody, rfl, rfl⟩ := h
  obtain ⟨condition, rfl, hcondition⟩ := expression_sound n hreadCondition
  obtain ⟨bodyTokens, dangling, rfl, hbody, helse⟩ := hother hreadBody
  exact ⟨openParen :: (condition ++ closeParen :: bodyTokens), dangling, by simp,
    .while hkeyword hopen hcondition hclose hbody, helse⟩

theorem expressionStatement_sound (n : Nat) :
    Category.statement.Sound (expressionStatement n) := by
  intro ts s rest h
  obtain ⟨e, semicolon, he, hsemicolon, rfl⟩ := reads_expressionStatement_iff.mp h
  obtain ⟨taken, rfl, hderives⟩ := expression_sound n he
  exact ⟨taken ++ [semicolon], false, by simp, .expression hderives hsemicolon, by simp⟩

/-- A statement that is read is derived. -/
theorem anyStatement_sound (hother : Category.statement.Sound other) (hloud : nested.Loud)
    (hnested : Category.declaration.Sound nested) (n : Nat) :
    Category.statement.Sound (anyStatement other nested n) := by
  intro ts s rest h
  obtain ⟨_, us, hpeek, hrule⟩ := reads_bind_iff.mp h
  obtain ⟨rfl, hus⟩ := reads_peek_iff.mp hpeek
  rw [hus] at hrule
  cases ts with
  | nil => exact expressionStatement_sound n hrule
  | cons t us =>
    rw [front] at hrule
    split at hrule
    case h_1 hkind =>
      obtain ⟨taken, dangling, rfl, hderives, helse⟩ := forStatement_sound hother
        (Token.isKeyword_iff.mpr hkind) (reads_take_seqRight_iff.mp hrule)
      exact ⟨t :: taken, dangling, rfl, hderives, helse⟩
    case h_2 hkind =>
      obtain ⟨taken, dangling, rfl, hderives, helse⟩ := ifStatement_sound hother
        (Token.isKeyword_iff.mpr hkind) (reads_take_seqRight_iff.mp hrule)
      exact ⟨t :: taken, dangling, rfl, hderives, helse⟩
    case h_3 hkind =>
      obtain ⟨taken, dangling, rfl, hderives, helse⟩ := whileStatement_sound hother
        (Token.isKeyword_iff.mpr hkind) (reads_take_seqRight_iff.mp hrule)
      exact ⟨t :: taken, dangling, rfl, hderives, helse⟩
    case h_4 hkind =>
      have hreturn := reads_take_seqRight_iff.mp hrule
      simp only [returnStatement, reads_bind_iff, reads_expect_iff, reads_pure_iff] at hreturn
      obtain ⟨value, _, hvalue, semicolon, _, ⟨rfl, hsemicolon⟩, rfl, rfl⟩ := hreturn
      obtain ⟨taken, rfl, hderives⟩ := optionalExpression_sound n _ hvalue
      exact ⟨t :: (taken ++ [semicolon]), false, by simp,
        .return (Token.isKeyword_iff.mpr hkind) hderives hsemicolon, by simp⟩
    case h_5 hkind =>
      obtain ⟨body, hbody, rfl⟩ := reads_map_iff.mp (reads_take_seqRight_iff.mp hrule)
      obtain ⟨parts, closeBrace, rfl, rfl, hclose, hparts⟩ := block_sound hloud hnested hbody
      exact ⟨t :: (parts.flatMap Part.tokens ++ [closeBrace]), false, by simp,
        .block (Token.isPunct_iff.mpr hkind) hparts hclose, by simp⟩
    case h_6 hkind =>
      have hprint := reads_take_seqRight_iff.mp hrule
      simp only [printStatement, reads_bind_iff, reads_expect_iff, reads_pure_iff] at hprint
      obtain ⟨e, _, he, semicolon, _, ⟨rfl, hsemicolon⟩, rfl, rfl⟩ := hprint
      obtain ⟨taken, rfl, hderives⟩ := expression_sound n he
      exact ⟨t :: (taken ++ [semicolon]), false, by simp,
        .print (Token.isKeyword_iff.mpr hkind) hderives hsemicolon, by simp⟩
    case h_7 => exact expressionStatement_sound n hrule

/-- A declaration that is read is derived. -/
theorem anyDeclaration_sound (hother : Category.statement.Sound other) (hloud : nested.Loud)
    (hnested : Category.declaration.Sound nested) (n : Nat) :
    Category.declaration.Sound (anyDeclaration other nested n) := by
  intro ts s rest h
  obtain ⟨_, us, hpeek, hrule⟩ := reads_bind_iff.mp (reads_recovering_iff.mp h)
  obtain ⟨rfl, hus⟩ := reads_peek_iff.mp hpeek
  rw [hus] at hrule
  have hstatement (hread : (anyStatement other nested n).Reads ts s rest) :
      ∃ taken dangling, ts = taken ++ rest ∧
        Category.declaration.Derives true taken s dangling ∧
        (dangling = true → (front rest).isKeyword .else = false) := by
    obtain ⟨taken, dangling, rfl, hderives, helse⟩ :=
      anyStatement_sound hother hloud hnested n hread
    exact ⟨taken, dangling, rfl, .statement hderives, helse⟩
  cases ts with
  | nil => exact hstatement hrule
  | cons t us =>
    rw [front] at hrule
    split at hrule
    case h_1 hkind =>
      obtain ⟨taken, rfl, hderives⟩ := function_sound hloud hnested
        (Token.isKeyword_iff.mpr hkind) (reads_take_seqRight_iff.mp hrule)
      exact ⟨t :: taken, false, rfl, hderives, by simp⟩
    case h_2 hkind =>
      obtain ⟨taken, rfl, hderives⟩ := varDeclaration_sound n (reads_take_seqRight_iff.mp hrule)
      exact ⟨t :: taken, false, rfl, .variable (Token.isKeyword_iff.mpr hkind) hderives, by simp⟩
    case h_3 => exact hstatement hrule

/-- Statements and declarations are bounded together, because each contains the other. -/
theorem statement_declaration_sound (n : Nat) :
    Category.statement.Sound (statement n) ∧ Category.declaration.Sound (declaration n) := by
  induction n with
  | zero => exact ⟨fun _ _ _ h => absurd h not_reads_fail, fun _ _ _ h => absurd h not_reads_fail⟩
  | succ n ih =>
    exact ⟨anyStatement_sound ih.1 (loud_declaration n) ih.2 _,
      anyDeclaration_sound ih.1 (loud_declaration n) ih.2 _⟩

end Lox.Grammar
