import Lox.Proofs.Grammar.Expression.Completeness
import Lox.Proofs.Grammar.Statement.Reading

namespace Lox.Grammar

open Rule

variable {nested other : Rule (Stmt Unit)} {n count : Nat} {ts rest : List Token}

/-- The tokens with which a statement can begin. -/
def startsStatement (t : Token) : Bool :=
  match t.kind with
  | .keyword .for | .keyword .if | .keyword .while | .keyword .return | .keyword .print
  | .punct .leftBrace => true
  | _ => startsExpression t

/-- The tokens with which a declaration can begin. -/
def startsDeclaration (t : Token) : Bool :=
  t.isKeyword .fun || t.isKeyword .var || startsStatement t

theorem startsStatement_of_startsExpression {t : Token} (h : startsExpression t) :
    startsStatement t := by
  unfold startsStatement
  split <;> simp [h]

/-- A sentence has a first token, with which it may start. -/
theorem Category.Derives.exists_first {nearest : Bool} {c : Category} {s : Stmt Unit}
    {dangling : Bool} (h : c.Derives nearest ts s dangling) :
    ∃ t us, ts = t :: us ∧ startsDeclaration t ∧ (c = .statement → startsStatement t) := by
  have hstatement {t : Token} (ht : startsStatement t) (us : List Token) :
      ∃ t' us', t :: us = t' :: us' ∧ startsDeclaration t' ∧
        (Category.statement = .statement → startsStatement t') :=
    ⟨t, us, rfl, by simp [startsDeclaration, ht], fun _ => ht⟩
  induction h with
  | function hkeyword => exact ⟨_, _, rfl, by simp [startsDeclaration, hkeyword], by simp⟩
  | «variable» hkeyword _ => exact ⟨_, _, rfl, by simp [startsDeclaration, hkeyword], by simp⟩
  | statement _ ih =>
    obtain ⟨t, us, rfl, hstart, -⟩ := ih
    exact ⟨t, us, rfl, hstart, by simp⟩
  | expression h _ =>
    obtain ⟨t, us, rfl, hstart, -⟩ := h.exists_first
    exact hstatement (startsStatement_of_startsExpression hstart) _
  | block hopen => exact hstatement (by simp [startsStatement, Token.isPunct_iff.mp hopen]) _
  | print hkeyword | «return» hkeyword | ifThen hkeyword | ifElse hkeyword | «while» hkeyword
  | «for» hkeyword =>
    exact hstatement (by simp [startsStatement, Token.isKeyword_iff.mp hkeyword]) _

/-- No declaration starts with what ends a list of them. -/
theorem not_closed_of_startsDeclaration {t : Token} (h : startsDeclaration t) :
    (t.isEnd || t.isPunct .rightBrace || t.isKeyword .else) = false := by
  obtain ⟨kind, _, _, _⟩ := t
  cases kind with
  | punct p =>
    cases p <;> simp_all [startsDeclaration, startsStatement, startsExpression, Token.isEnd,
      Token.isPunct, Token.isKeyword]
  | keyword k =>
    cases k <;> simp_all [startsDeclaration, startsStatement, startsExpression, Token.isEnd,
      Token.isPunct, Token.isKeyword]
  | _ =>
    simp_all [startsDeclaration, startsStatement, startsExpression, Token.isEnd, Token.isPunct,
      Token.isKeyword]

theorem strength_of_semicolon {t : Token} (h : t.isPunct .semicolon) : strength t = 0 := by
  simp [strength, Token.isPunct_iff.mp h]

theorem strength_of_rightParen {t : Token} (h : t.isPunct .rightParen) : strength t = 0 := by
  simp [strength, Token.isPunct_iff.mp h]

/-- An optional expression is read up to what closes it. -/
theorem optionalExpression_complete {value : Option (Expr Unit)} {close : Punct} {last : Token}
    (h : DerivesOptional ts value) (hlast : last.isPunct close)
    (hclose : close = .semicolon ∨ close = .rightParen) (hn : (ts ++ last :: rest).length ≤ n) :
    (optionalExpression n close).Reads (ts ++ last :: rest) value (last :: rest) := by
  have hstrength : strength last = 0 := by
    rcases hclose with rfl | rfl
    · exact strength_of_semicolon hlast
    · exact strength_of_rightParen hlast
  cases h with
  | absent => exact reads_optionalExpression_iff.mpr (.inl ⟨hlast, rfl, rfl⟩)
  | present h =>
    refine reads_optionalExpression_iff.mpr
      (.inr ⟨?_, _, expression_complete h hn hstrength, rfl⟩)
    obtain ⟨t, us, rfl, hstart, -⟩ := h.exists_first
    rw [← Bool.not_eq_true, List.cons_append, front, Token.isPunct_iff]
    intro hkind
    rcases hclose with rfl | rfl <;> simp [startsExpression, hkind] at hstart

/-- A variable declaration is read behind its keyword. -/
theorem varDeclaration_complete {s : Stmt Unit} (h : DerivesVariable ts s)
    (hn : (ts ++ rest).length ≤ n) : (varDeclaration n).Reads (ts ++ rest) s rest := by
  cases h with
  | plain hname hsemicolon =>
    exact reads_varDeclaration_iff.mpr (.inl ⟨_, _, rfl, hname, hsemicolon, rfl⟩)
  | @initialized name equals semicolon us e hname hequals h hsemicolon =>
    simp only [List.cons_append, List.append_assoc, List.nil_append, List.length_cons] at hn ⊢
    refine reads_varDeclaration_iff.mpr
      (.inr ⟨name, equals, _, e, semicolon, rfl, hname, hequals, ?_, hsemicolon, rfl⟩)
    exact expression_complete h (by omega) (strength_of_semicolon hsemicolon)

theorem expressionStatement_complete {e : Expr Unit} {semicolon : Token}
    (h : Phrase.expression.Derives ts e) (hsemicolon : semicolon.isPunct .semicolon)
    (hn : (ts ++ semicolon :: rest).length ≤ n) :
    (expressionStatement n).Reads (ts ++ semicolon :: rest) (.expression e) rest :=
  reads_expressionStatement_iff.mpr
    ⟨e, semicolon, expression_complete h hn (strength_of_semicolon hsemicolon), hsemicolon, rfl⟩

/-- Every initializer of a loop is read. -/
theorem initializer_complete {initializer : Option (Stmt Unit)}
    (h : DerivesInitializer ts initializer) (hn : (ts ++ rest).length ≤ n) :
    ReadsInitializer n (ts ++ rest) initializer rest := by
  cases h with
  | absent hsemicolon => exact .inl ⟨_, rfl, hsemicolon, rfl⟩
  | «variable» hkeyword h =>
    simp only [List.cons_append, List.length_cons] at hn ⊢
    exact .inr (.inl ⟨_, _, _, rfl, hkeyword, varDeclaration_complete h (by omega), rfl⟩)
  | expression h hsemicolon =>
    simp only [List.append_assoc, List.cons_append, List.nil_append] at hn ⊢
    refine .inr (.inr ⟨?_, _, expressionStatement_complete h hsemicolon hn, rfl⟩)
    obtain ⟨t, us, rfl, hstart, -⟩ := h.exists_first
    refine forall_head?_of_front ?_
    rw [← Bool.not_eq_true, List.cons_append, front, Bool.or_eq_true, Token.isPunct_iff,
      Token.isKeyword_iff]
    rintro (hkind | hkind) <;> simp [startsExpression, hkind] at hstart

/-- Parameters that are separated by commas are read up to the closing parenthesis. -/
theorem parameters_complete {us params : List Token} {closeParen : Token}
    (hparams : ∀ p ∈ params, p.isIdentifier) (hseparated : Separated (params.map fun p => [p]) us)
    (hne : params ≠ []) (hclose : closeParen.isPunct .rightParen)
    (hlimit : count + params.length ≤ maxArguments) (hn : us.length ≤ n) :
    (parameters n count).Reads (us ++ closeParen :: rest) params (closeParen :: rest) := by
  induction params generalizing us n count with
  | nil => exact absurd rfl hne
  | cons p others ih =>
    obtain ⟨vs, rfl⟩ := hseparated.exists_first
    obtain ⟨n, rfl⟩ : ∃ k, n = k + 1 :=
      Nat.exists_eq_succ_of_ne_zero (by simp only [List.length_cons] at hn; omega)
    have hp := hparams p (by simp)
    simp only [List.length_cons] at hlimit
    refine reads_parameters_succ_iff.mpr ⟨by omega, p, vs ++ closeParen :: rest, rfl, hp, ?_⟩
    cases others with
    | nil =>
      cases hseparated
      exact .inr ⟨by simp [Token.isPunct, Token.isPunct_iff.mp hclose], rfl, rfl⟩
    | cons q others =>
      cases hseparated with
      | more hcomma hwithin =>
        refine .inl ⟨_, _, q :: others, rfl, hcomma, ?_, rfl⟩
        refine ih (fun p hp => hparams p (by simp [hp])) hwithin (by simp) ?_ ?_
        · simp only [List.length_cons] at hlimit ⊢
          omega
        · change _ + 1 + 1 ≤ n + 1 at hn
          omega

/-- The rule for this kind of statement. -/
def Category.rule : Category → Nat → Rule (Stmt Unit)
  | statement => Grammar.statement
  | declaration => Grammar.declaration

/-- The rule reads these tokens as this tree wherever no `else` behind them belongs to it. -/
def Category.Complete (c : Category) (ts : List Token) (s : Stmt Unit) (dangling : Bool) : Prop :=
  ∀ ⦃n rest⦄, (ts ++ rest).length ≤ n → (dangling = true → (front rest).isKeyword .else = false) →
    (c.rule n).Reads (ts ++ rest) s rest

/-- Declarations are read one after another up to where they are closed. -/
theorem declarations_complete {closed : Token → Bool} {parts : List Part} {m : Nat}
    (hparts : ∀ part ∈ parts,
      Category.declaration.Complete part.tokens part.tree part.dangling)
    (hfirst : ∀ part ∈ parts, ∃ t us, part.tokens = t :: us ∧ startsDeclaration t)
    (hclosed : ∀ t, startsDeclaration t → closed t = false)
    (hstop : ((front rest).isEnd || closed (front rest)) = true)
    (hrest : (front rest).isKeyword .else = false)
    (hm : (parts.flatMap Part.tokens ++ rest).length ≤ m)
    (hn : (parts.flatMap Part.tokens).length ≤ n) :
    (declarations (declaration m) closed n).Reads (parts.flatMap Part.tokens ++ rest)
      (parts.map Part.tree) rest := by
  induction parts generalizing n with
  | nil =>
    cases n with
    | zero => exact reads_pure_iff.mpr ⟨rfl, rfl⟩
    | succ n =>
      exact (reads_declarations_succ_iff (loud_declaration m)).mpr (.inl ⟨hstop, rfl, rfl⟩)
  | cons part others ih =>
    obtain ⟨t, us, htokens, hstart⟩ := hfirst part (by simp)
    simp only [List.flatMap_cons, List.append_assoc, List.length_append] at hm hn ⊢
    have hpos : 0 < part.tokens.length := by simp [htokens]
    obtain ⟨n, rfl⟩ : ∃ k, n = k + 1 := Nat.exists_eq_succ_of_ne_zero (by omega)
    refine (reads_declarations_succ_iff (loud_declaration m)).mpr (.inr ⟨?_, part.tree,
      others.flatMap Part.tokens ++ rest, others.map Part.tree, ?_, ?_, rfl⟩)
    · have hopen := not_closed_of_startsDeclaration hstart
      simp only [Bool.or_eq_false_iff] at hopen
      rw [htokens, List.cons_append, front, hopen.1.1, hclosed t hstart]
      rfl
    · refine hparts part (by simp) (by simpa using hm) fun _ => ?_
      -- the next declaration, if there is one, does not begin with an `else` either
      cases others with
      | nil => simpa using hrest
      | cons other others =>
        obtain ⟨t', us', htokens', hstart'⟩ := hfirst other (by simp)
        have hopen := not_closed_of_startsDeclaration hstart'
        simp only [Bool.or_eq_false_iff] at hopen
        simp [htokens', front, hopen.2]
    · refine ih (fun part hpart => hparts part (by simp [hpart]))
        (fun part hpart => hfirst part (by simp [hpart])) ?_ (by omega)
      simp only [List.length_append]
      omega

/-- A block is read up to its closing brace. -/
theorem block_complete {parts : List Part} {closeBrace : Token} {m : Nat}
    (hderives : ∀ part ∈ parts,
      Category.declaration.Derives true part.tokens part.tree part.dangling)
    (hparts : ∀ part ∈ parts,
      Category.declaration.Complete part.tokens part.tree part.dangling)
    (hclose : closeBrace.isPunct .rightBrace)
    (hm : (parts.flatMap Part.tokens ++ closeBrace :: rest).length ≤ m)
    (hn : (parts.flatMap Part.tokens ++ closeBrace :: rest).length ≤ n) :
    (block (declaration m) n).Reads (parts.flatMap Part.tokens ++ closeBrace :: rest)
      (parts.map Part.tree) rest := by
  refine reads_bind_iff.mpr ⟨_, closeBrace :: rest, declarations_complete hparts ?_ ?_ ?_ ?_ hm ?_,
    ?_⟩
  · intro part hpart
    obtain ⟨t, us, htokens, hstart, -⟩ := (hderives part hpart).exists_first
    exact ⟨t, us, htokens, hstart⟩
  · intro t hstart
    have hopen := not_closed_of_startsDeclaration hstart
    simp only [Bool.or_eq_false_iff] at hopen
    exact hopen.1.2
  · simp [front, hclose]
  · simp [front, Token.isKeyword, Token.isPunct_iff.mp hclose]
  · simp only [List.length_append] at hn
    omega
  · exact reads_bind_iff.mpr
      ⟨closeBrace, rest, reads_expect_iff.mpr ⟨rfl, hclose⟩, reads_pure_iff.mpr ⟨rfl, rfl⟩⟩

/-- The token in front decides which statement is read. -/
theorem reads_statement_cons_iff {t : Token} {us : List Token} {s : Stmt Unit} :
    (statement (n + 1)).Reads (t :: us) s rest ↔
      match t.kind with
      | .keyword .for => (forStatement (statement n) (n + 1)).Reads us s rest
      | .keyword .if => (ifStatement (statement n) (n + 1)).Reads us s rest
      | .keyword .while => (whileStatement (statement n) (n + 1)).Reads us s rest
      | .keyword .return => (returnStatement (n + 1) t).Reads us s rest
      | .punct .leftBrace => ∃ body, (block (declaration n) (n + 1)).Reads us body rest ∧
          s = .block body
      | .keyword .print => (printStatement (n + 1)).Reads us s rest
      | _ => (expressionStatement (n + 1)).Reads (t :: us) s rest := by
  have hpeek {r : Token → Rule (Stmt Unit)} :
      (peek >>= r).Reads (t :: us) s rest ↔ (r t).Reads (t :: us) s rest := by
    rw [reads_bind_iff]
    constructor
    · rintro ⟨_, _, hpeek, h⟩
      obtain ⟨rfl, rfl⟩ := reads_peek_iff.mp hpeek
      exact h
    · exact fun h => ⟨t, t :: us, reads_peek_iff.mpr ⟨rfl, rfl⟩, h⟩
  rw [statement, anyStatement, hpeek]
  generalize t.kind = kind
  cases kind with
  | keyword k => cases k <;> simp only [reads_take_seqRight_iff]
  | punct p => cases p <;> simp only [reads_take_seqRight_iff, reads_map_iff]
  | _ => rfl

/-- What starts an expression and is read as an expression statement is read as a statement. -/
theorem expressionStatement_le_statement {t : Token} {us : List Token} {s : Stmt Unit}
    (ht : startsExpression t) (h : (expressionStatement (n + 1)).Reads (t :: us) s rest) :
    (statement (n + 1)).Reads (t :: us) s rest := by
  rw [reads_statement_cons_iff]
  split
  case h_7 => exact h
  all_goals rename_i hkind; simp [startsExpression, hkind] at ht

/-- What starts a statement and is read as one is read as a declaration. -/
theorem statement_le_declaration {t : Token} {us : List Token} {s : Stmt Unit}
    (ht : startsStatement t) (h : (statement (n + 1)).Reads (t :: us) s rest) :
    (declaration (n + 1)).Reads (t :: us) s rest := by
  refine reads_recovering_iff.mpr
    (reads_bind_iff.mpr ⟨t, t :: us, reads_peek_iff.mpr ⟨rfl, rfl⟩, ?_⟩)
  split
  case h_3 => exact h
  all_goals rename_i hkind; simp [startsStatement, startsExpression, hkind] at ht

/-- A statement that begins with a keyword is read behind it, with a smaller bound inside. -/
theorem statement_complete_of_keyword {k : Keyword} {keyword : Token} {s : Stmt Unit}
    {dangling : Bool} (hkeyword : keyword.isKeyword k)
    (h : ∀ ⦃n rest⦄, (ts ++ rest).length ≤ n →
      (dangling = true → (front rest).isKeyword .else = false) →
      match k with
      | .for => (forStatement (statement n) (n + 1)).Reads (ts ++ rest) s rest
      | .if => (ifStatement (statement n) (n + 1)).Reads (ts ++ rest) s rest
      | .while => (whileStatement (statement n) (n + 1)).Reads (ts ++ rest) s rest
      | .return => (returnStatement (n + 1) keyword).Reads (ts ++ rest) s rest
      | .print => (printStatement (n + 1)).Reads (ts ++ rest) s rest
      | _ => False) :
    Category.statement.Complete (keyword :: ts) s dangling := by
  intro n rest hn hrest
  simp only [List.cons_append, List.length_cons] at hn ⊢
  obtain ⟨n, rfl⟩ : ∃ m, n = m + 1 := Nat.exists_eq_succ_of_ne_zero (by omega)
  have hreads := h (n := n) (by omega) hrest
  refine reads_statement_cons_iff.mpr ?_
  rw [Token.isKeyword_iff.mp hkeyword]
  cases k <;> first | exact hreads | exact hreads.elim

/-- A conditional without `else` is read, wherever no `else` follows. -/
theorem ifThen_complete {keyword openParen closeParen : Token} {us : List Token} {e : Expr Unit}
    {s : Stmt Unit} {dangling : Bool} (hkeyword : keyword.isKeyword .if)
    (hopen : openParen.isPunct .leftParen) (hcondition : Phrase.expression.Derives ts e)
    (hclose : closeParen.isPunct .rightParen) (hthen : Category.statement.Complete us s dangling) :
    Category.statement.Complete (keyword :: openParen :: (ts ++ closeParen :: us)) (.if e s none)
      true := by
  refine statement_complete_of_keyword hkeyword fun n rest hn hrest => ?_
  simp only [List.cons_append, List.append_assoc, List.length_cons, List.length_append] at hn ⊢
  refine reads_ifStatement_iff.mpr ⟨openParen, _, e, closeParen, us ++ rest, s, rest, rfl, hopen,
    ?_, hclose, ?_, .inr ⟨forall_head?_of_front (hrest rfl), rfl, rfl⟩⟩
  · refine expression_complete hcondition ?_ (strength_of_rightParen hclose)
    simp only [List.length_cons, List.length_append]
    omega
  · refine hthen ?_ fun _ => hrest rfl
    simp only [List.length_append]
    omega

/-- A conditional takes the `else` behind its first branch. -/
theorem ifElse_complete {keyword openParen closeParen keywordElse : Token} {us vs : List Token}
    {e : Expr Unit} {s s' : Stmt Unit} {dangling : Bool} (hkeyword : keyword.isKeyword .if)
    (hopen : openParen.isPunct .leftParen) (hcondition : Phrase.expression.Derives ts e)
    (hclose : closeParen.isPunct .rightParen) (hthen : Category.statement.Complete us s false)
    (helse : keywordElse.isKeyword .else) (hother : Category.statement.Complete vs s' dangling) :
    Category.statement.Complete
      (keyword :: openParen :: (ts ++ closeParen :: (us ++ keywordElse :: vs)))
      (.if e s (some s')) dangling := by
  refine statement_complete_of_keyword hkeyword fun n rest hn hrest => ?_
  simp only [List.cons_append, List.append_assoc, List.length_cons, List.length_append] at hn ⊢
  refine reads_ifStatement_iff.mpr ⟨openParen, _, e, closeParen, us ++ keywordElse :: (vs ++ rest),
    s, keywordElse :: (vs ++ rest), rfl, hopen, ?_, hclose, ?_,
    .inl ⟨keywordElse, vs ++ rest, s', rfl, helse, ?_, rfl⟩⟩
  · refine expression_complete hcondition ?_ (strength_of_rightParen hclose)
    simp only [List.length_cons, List.length_append]
    omega
  · refine hthen ?_ (by simp)
    simp only [List.length_cons, List.length_append]
    omega
  · refine hother ?_ hrest
    simp only [List.length_append]
    omega

theorem while_complete {keyword openParen closeParen : Token} {us : List Token} {e : Expr Unit}
    {s : Stmt Unit} {dangling : Bool} (hkeyword : keyword.isKeyword .while)
    (hopen : openParen.isPunct .leftParen) (hcondition : Phrase.expression.Derives ts e)
    (hclose : closeParen.isPunct .rightParen) (hbody : Category.statement.Complete us s dangling) :
    Category.statement.Complete (keyword :: openParen :: (ts ++ closeParen :: us)) (.while e s)
      dangling := by
  refine statement_complete_of_keyword hkeyword fun n rest hn hrest => ?_
  simp only [List.cons_append, List.append_assoc, List.length_cons, List.length_append] at hn ⊢
  simp only [whileStatement, reads_bind_iff, reads_expect_iff, reads_pure_iff]
  refine ⟨openParen, _, ⟨rfl, hopen⟩, e, closeParen :: (us ++ rest), ?_, closeParen, _,
    ⟨rfl, hclose⟩, s, rest, hbody ?_ hrest, rfl, rfl⟩
  · refine expression_complete hcondition ?_ (strength_of_rightParen hclose)
    simp only [List.length_cons, List.length_append]
    omega
  · simp only [List.length_append]
    omega

/-- A loop is read with its clauses. -/
theorem for_complete {keyword openParen semicolon closeParen : Token}
    {first us vs : List Token} {initializer : Option (Stmt Unit)}
    {condition increment : Option (Expr Unit)} {s : Stmt Unit} {dangling : Bool}
    (hkeyword : keyword.isKeyword .for) (hopen : openParen.isPunct .leftParen)
    (hfirst : DerivesInitializer first initializer) (hcondition : DerivesOptional ts condition)
    (hsemicolon : semicolon.isPunct .semicolon) (hincrement : DerivesOptional us increment)
    (hclose : closeParen.isPunct .rightParen) (hbody : Category.statement.Complete vs s dangling) :
    Category.statement.Complete
      (keyword :: openParen :: (first ++ (ts ++ semicolon :: (us ++ closeParen :: vs))))
      (forLoop initializer condition increment s) dangling := by
  refine statement_complete_of_keyword hkeyword fun n rest hn hrest => ?_
  simp only [List.cons_append, List.append_assoc, List.length_cons, List.length_append] at hn ⊢
  refine reads_forStatement_iff.mpr ⟨openParen, _, initializer,
    ts ++ semicolon :: (us ++ closeParen :: (vs ++ rest)), condition, semicolon,
    us ++ closeParen :: (vs ++ rest), increment, closeParen, vs ++ rest, s, rfl, hopen,
    initializer_complete hfirst ?_, optionalExpression_complete hcondition hsemicolon (.inl rfl) ?_,
    hsemicolon, optionalExpression_complete hincrement hclose (.inr rfl) ?_, hclose, hbody ?_ hrest,
    rfl⟩
  all_goals
    simp only [List.length_cons, List.length_append]
    omega

/-- A function is read with its parameters and its body. -/
theorem function_complete {keyword name openParen closeParen openBrace closeBrace : Token}
    {params : List Token} {parts : List Part} (hkeyword : keyword.isKeyword .fun)
    (hname : name.isIdentifier) (hopen : openParen.isPunct .leftParen)
    (hparams : ∀ p ∈ params, p.isIdentifier) (hlimit : params.length ≤ maxArguments)
    (hseparated : Separated (params.map fun p => [p]) ts)
    (hclose : closeParen.isPunct .rightParen) (hopenBrace : openBrace.isPunct .leftBrace)
    (hderives : ∀ part ∈ parts,
      Category.declaration.Derives true part.tokens part.tree part.dangling)
    (hparts : ∀ part ∈ parts,
      Category.declaration.Complete part.tokens part.tree part.dangling)
    (hcloseBrace : closeBrace.isPunct .rightBrace) :
    Category.declaration.Complete
      (keyword :: name :: openParen :: (ts ++ closeParen :: openBrace ::
        (parts.flatMap Part.tokens ++ [closeBrace])))
      (.function name params (parts.map Part.tree)) false := by
  intro n rest hn _
  simp only [List.cons_append, List.append_assoc, List.nil_append, List.length_cons] at hn ⊢
  obtain ⟨n, rfl⟩ : ∃ m, n = m + 1 := Nat.exists_eq_succ_of_ne_zero (by omega)
  refine reads_recovering_iff.mpr
    (reads_bind_iff.mpr ⟨keyword, _, reads_peek_iff.mpr ⟨rfl, rfl⟩, ?_⟩)
  rw [Token.isKeyword_iff.mp hkeyword]
  refine reads_take_seqRight_iff.mpr (reads_function_iff.mpr ⟨name, openParen, _, params,
    closeParen, openBrace, parts.flatMap Part.tokens ++ closeBrace :: rest, parts.map Part.tree,
    rfl, hname, hopen, ?_, hclose, hopenBrace, ?_, rfl⟩)
  · cases params with
    | nil =>
      cases hseparated
      exact .inl ⟨rfl, rfl⟩
    | cons p params =>
      refine .inr ⟨?_, ?_⟩
      · obtain ⟨us, rfl⟩ := hseparated.exists_first
        simp [front, Token.isPunct, Token.isIdentifier_iff.mp (hparams p (by simp))]
      · refine parameters_complete hparams hseparated (by simp) hclose (by simpa using hlimit) ?_
        simp only [List.length_append] at hn
        omega
  · simp only [List.length_append, List.length_cons] at hn
    refine block_complete hderives hparts hcloseBrace ?_ ?_
    all_goals
      simp only [List.length_append, List.length_cons]
      omega

/-- Every derivation is read by the rule of its category. -/
theorem Category.Derives.complete {c : Category} {s : Stmt Unit} {dangling : Bool}
    (h : c.Derives true ts s dangling) : c.Complete ts s dangling := by
  induction h with
  | function hkeyword hname hopen hparams hlimit hseparated hclose hopenBrace hparts hend ih =>
    exact function_complete hkeyword hname hopen hparams hlimit hseparated hclose hopenBrace hparts
      ih hend
  | «variable» hkeyword h =>
    intro n rest hn _
    simp only [List.cons_append, List.length_cons] at hn ⊢
    obtain ⟨n, rfl⟩ : ∃ m, n = m + 1 := Nat.exists_eq_succ_of_ne_zero (by omega)
    refine reads_recovering_iff.mpr
      (reads_bind_iff.mpr ⟨_, _, reads_peek_iff.mpr ⟨rfl, rfl⟩, ?_⟩)
    rw [front, Token.isKeyword_iff.mp hkeyword]
    exact reads_take_seqRight_iff.mpr (varDeclaration_complete h (by omega))
  | statement h ih =>
    intro n rest hn hrest
    obtain ⟨t, us, rfl, -, hstart⟩ := h.exists_first
    simp only [List.cons_append, List.length_cons] at hn ⊢
    obtain ⟨n, rfl⟩ : ∃ m, n = m + 1 := Nat.exists_eq_succ_of_ne_zero (by omega)
    exact statement_le_declaration (hstart rfl) (ih hn hrest)
  | expression h hsemicolon =>
    intro n rest hn _
    obtain ⟨t, us, rfl, hstart, -⟩ := h.exists_first
    simp only [List.append_assoc, List.cons_append, List.nil_append] at hn ⊢
    obtain ⟨n, rfl⟩ : ∃ m, n = m + 1 :=
      Nat.exists_eq_succ_of_ne_zero (by simp only [List.length_cons] at hn; omega)
    exact expressionStatement_le_statement hstart (expressionStatement_complete h hsemicolon hn)
  | print hkeyword h hsemicolon =>
    refine statement_complete_of_keyword hkeyword fun n rest hn _ => ?_
    simp only [List.append_assoc, List.cons_append, List.nil_append] at hn ⊢
    simp only [printStatement, reads_bind_iff, reads_expect_iff, reads_pure_iff]
    exact ⟨_, _, expression_complete h (by omega) (strength_of_semicolon hsemicolon), _, _,
      ⟨rfl, hsemicolon⟩, rfl, rfl⟩
  | «return» hkeyword h hsemicolon =>
    refine statement_complete_of_keyword hkeyword fun n rest hn _ => ?_
    simp only [List.append_assoc, List.cons_append, List.nil_append] at hn ⊢
    simp only [returnStatement, reads_bind_iff, reads_expect_iff, reads_pure_iff]
    exact ⟨_, _, optionalExpression_complete h hsemicolon (.inl rfl) (by omega), _, _,
      ⟨rfl, hsemicolon⟩, rfl, rfl⟩
  | block hopen hparts hclose ih =>
    intro n rest hn _
    simp only [List.cons_append, List.append_assoc, List.nil_append, List.length_cons] at hn ⊢
    obtain ⟨n, rfl⟩ : ∃ m, n = m + 1 := Nat.exists_eq_succ_of_ne_zero (by omega)
    refine reads_statement_cons_iff.mpr ?_
    rw [Token.isPunct_iff.mp hopen]
    exact ⟨_, block_complete hparts ih hclose (by omega) (by omega), rfl⟩
  | ifThen hkeyword hopen hcondition hclose _ ih =>
    exact ifThen_complete hkeyword hopen hcondition hclose ih
  | ifElse hkeyword hopen hcondition hclose _ hnearest helse _ ihthen ihother =>
    rw [hnearest rfl] at ihthen
    exact ifElse_complete hkeyword hopen hcondition hclose ihthen helse ihother
  | «while» hkeyword hopen hcondition hclose _ ih =>
    exact while_complete hkeyword hopen hcondition hclose ih
  | «for» hkeyword hopen hfirst hcondition hsemicolon hincrement hclose _ ih =>
    exact for_complete hkeyword hopen hfirst hcondition hsemicolon hincrement hclose ih

end Lox.Grammar
