import Lox.Proofs.Grammar.Expression.Reading
import Lox.Proofs.Grammar.Loudness

namespace Lox.Grammar

open Rule

variable {n count : Nat} {ts rest : List Token}

/-- An optional expression is absent exactly in front of what closes it. -/
theorem reads_optionalExpression_iff {close : Punct} {value : Option (Expr Unit)} :
    (optionalExpression n close).Reads ts value rest ↔
      (front ts).isPunct close ∧ value = none ∧ rest = ts ∨
      (front ts).isPunct close = false ∧ ∃ e, (expression n).Reads ts e rest ∧ value = some e := by
  rw [optionalExpression, reads_bind_iff]
  simp only [reads_peek_iff, reads_ite_iff, reads_pure_iff, reads_map_iff, Bool.not_eq_true]
  constructor
  · rintro ⟨_, _, ⟨rfl, rfl⟩, h⟩
    exact h
  · exact fun h => ⟨_, _, ⟨rfl, rfl⟩, h⟩

/-- A variable declaration is a name, and an initializer behind an equals sign. -/
theorem reads_varDeclaration_iff {s : Stmt Unit} :
    (varDeclaration n).Reads ts s rest ↔
      (∃ name semicolon, ts = name :: semicolon :: rest ∧ name.isIdentifier ∧
        semicolon.isPunct .semicolon ∧ s = .var name none) ∨
      ∃ name equals us e semicolon, ts = name :: equals :: us ∧ name.isIdentifier ∧
        equals.isPunct .equal ∧ (expression n).Reads us e (semicolon :: rest) ∧
        semicolon.isPunct .semicolon ∧ s = .var name (some e) := by
  rw [varDeclaration, reads_bind_iff]
  constructor
  · rintro ⟨name, us, hfirst, h⟩
    obtain ⟨rfl, hname⟩ := reads_expect_iff.mp hfirst
    obtain ⟨next, vs, hnext, hothers⟩ := reads_bind_iff.mp h
    cases next with
    | none =>
      obtain ⟨rfl, -⟩ := reads_accept?_none_iff.mp hnext
      simp only [reads_bind_iff, reads_pure_iff, reads_expect_iff] at hothers
      obtain ⟨_, _, ⟨rfl, rfl⟩, semicolon, _, ⟨rfl, hsemicolon⟩, rfl, rfl⟩ := hothers
      exact .inl ⟨name, semicolon, rfl, hname, hsemicolon, rfl⟩
    | some equals =>
      obtain ⟨rfl, hequals⟩ := reads_accept?_some_iff.mp hnext
      simp only [reads_bind_iff, reads_map_iff, reads_pure_iff, reads_expect_iff] at hothers
      obtain ⟨_, _, ⟨e, he, rfl⟩, semicolon, _, ⟨rfl, hsemicolon⟩, rfl, rfl⟩ := hothers
      exact .inr ⟨name, equals, vs, e, semicolon, rfl, hname, hequals, he, hsemicolon, rfl⟩
  · rintro (⟨name, semicolon, rfl, hname, hsemicolon, rfl⟩ |
      ⟨name, equals, us, e, semicolon, rfl, hname, hequals, he, hsemicolon, rfl⟩)
    · refine ⟨name, _, reads_expect_iff.mpr ⟨rfl, hname⟩, reads_bind_iff.mpr ⟨none,
        semicolon :: rest, reads_accept?_none_iff.mpr ⟨rfl, ?_⟩, ?_⟩⟩
      · simp [Token.isPunct, Token.isPunct_iff.mp hsemicolon]
      · simp only [reads_bind_iff, reads_pure_iff, reads_expect_iff]
        exact ⟨_, _, ⟨rfl, rfl⟩, semicolon, rest, ⟨rfl, hsemicolon⟩, rfl, rfl⟩
    · refine ⟨name, _, reads_expect_iff.mpr ⟨rfl, hname⟩, reads_bind_iff.mpr ⟨some equals,
        us, reads_accept?_some_iff.mpr ⟨rfl, hequals⟩, ?_⟩⟩
      simp only [reads_bind_iff, reads_map_iff, reads_pure_iff, reads_expect_iff]
      exact ⟨_, _, ⟨e, he, rfl⟩, semicolon, rest, ⟨rfl, hsemicolon⟩, rfl, rfl⟩

/-- Parameters are one name, and more behind a comma. -/
theorem reads_parameters_succ_iff {params : List Token} :
    (parameters (n + 1) count).Reads ts params rest ↔
      count < maxArguments ∧ ∃ p middle, ts = p :: middle ∧ p.isIdentifier ∧
        ((∃ comma us others, middle = comma :: us ∧ comma.isPunct .comma ∧
            (parameters n (count + 1)).Reads us others rest ∧ params = p :: others) ∨
          (∀ t ∈ middle.head?, t.isPunct .comma = false) ∧ rest = middle ∧ params = [p]) := by
  rw [parameters]
  by_cases hlimit : maxArguments ≤ count
  · simp [hlimit, reads_bind_iff, Nat.not_lt.mpr hlimit]
  · have hcount : count < maxArguments := Nat.lt_of_not_le hlimit
    simp only [hlimit, if_false, hcount, true_and, reads_bind_iff]
    constructor
    · rintro ⟨p, middle, hfirst, next, last, hnext, h⟩
      obtain ⟨rfl, hp⟩ := reads_expect_iff.mp hfirst
      refine ⟨p, middle, rfl, hp, ?_⟩
      cases next with
      | some comma =>
        obtain ⟨rfl, hcomma⟩ := reads_accept?_some_iff.mp hnext
        obtain ⟨others, _, hothers, h⟩ := reads_bind_iff.mp h
        obtain ⟨rfl, rfl⟩ := reads_pure_iff.mp h
        exact .inl ⟨comma, last, others, rfl, hcomma, hothers, rfl⟩
      | none =>
        obtain ⟨rfl, hcomma⟩ := reads_accept?_none_iff.mp hnext
        obtain ⟨rfl, rfl⟩ := reads_pure_iff.mp h
        exact .inr ⟨hcomma, rfl, rfl⟩
    · rintro ⟨p, middle, rfl, hp, ⟨comma, us, others, rfl, hcomma, hothers, rfl⟩ |
        ⟨hcomma, rfl, rfl⟩⟩
      · refine ⟨p, _, reads_expect_iff.mpr ⟨rfl, hp⟩, some comma, us,
          reads_accept?_some_iff.mpr ⟨rfl, hcomma⟩, ?_⟩
        exact reads_bind_iff.mpr ⟨others, rest, hothers, reads_pure_iff.mpr ⟨rfl, rfl⟩⟩
      · exact ⟨p, rest, reads_expect_iff.mpr ⟨rfl, hp⟩, none, rest,
          reads_accept?_none_iff.mpr ⟨rfl, hcomma⟩, reads_pure_iff.mpr ⟨rfl, rfl⟩⟩

/-- A clean reading of declarations drops none: the rule for one of them is given up only with an
    error. -/
theorem reads_declarations_succ_iff {nested : Rule (Stmt Unit)} {closed : Token → Bool}
    (hnested : nested.Loud) {ss : List (Stmt Unit)} :
    (declarations nested closed (n + 1)).Reads ts ss rest ↔
      ((front ts).isEnd || closed (front ts)) = true ∧ ss = [] ∧ rest = ts ∨
      ((front ts).isEnd || closed (front ts)) = false ∧ ∃ s middle others,
        nested.Reads ts s middle ∧ (declarations nested closed n).Reads middle others rest ∧
        ss = s :: others := by
  by_cases hclosed : ((front ts).isEnd || closed (front ts)) = true
  · simp only [Reads, declarations, hclosed, if_true, Reply.mk.injEq, Option.some.injEq, true_and]
    constructor
    · rintro ⟨rfl, rfl⟩
      exact .inl ⟨rfl, rfl⟩
    · rintro (⟨rfl, rfl⟩ | ⟨h, -⟩)
      · exact ⟨rfl, rfl⟩
      · cases h
  · rw [Bool.not_eq_true] at hclosed
    simp only [Reads, declarations, hclosed, Bool.false_eq_true, if_false, Reply.mk.injEq,
      Option.map_eq_some_iff, List.append_eq_nil_iff, false_and, false_or, true_and]
    constructor
    · rintro ⟨⟨others, hothers, rfl⟩, ⟨hfirst, hrest⟩, rfl⟩
      cases hresult : (nested ts).result with
      | none => exact absurd hfirst (hnested ts hresult)
      | some s =>
        refine ⟨s, (nested ts).rest, others, ?_, ?_, rfl⟩
        · rw [← hresult, ← hfirst]
        · rw [← hothers, ← hrest]
    · rintro ⟨s, middle, others, hs, hothers, rfl⟩
      simp [hs, hothers]

/-- A clean reading needs no recovery. -/
@[simp]
theorem reads_recovering_iff {r : Rule (Stmt Unit)} {s : Stmt Unit} :
    (recovering r).Reads ts s rest ↔ r.Reads ts s rest := by
  unfold Reads recovering
  split <;> simp_all

/-- A function is a name, its parameters in parentheses and its body in braces. -/
theorem reads_function_iff {nested : Rule (Stmt Unit)} {s : Stmt Unit} :
    (function nested n).Reads ts s rest ↔
      ∃ name openParen us params closeParen openBrace vs body, ts = name :: openParen :: us ∧
        name.isIdentifier ∧ openParen.isPunct .leftParen ∧
        (params = [] ∧ us = closeParen :: openBrace :: vs ∨ (front us).isPunct .rightParen = false ∧
          (parameters n 0).Reads us params (closeParen :: openBrace :: vs)) ∧
        closeParen.isPunct .rightParen ∧ openBrace.isPunct .leftBrace ∧
        (block nested n).Reads vs body rest ∧ s = .function name params body := by
  simp only [function, reads_bind_iff, reads_expect_iff, reads_peek_iff, reads_ite_iff,
    reads_pure_iff]
  constructor
  · rintro ⟨name, _, ⟨rfl, hname⟩, openParen, us, ⟨rfl, hopen⟩, _, _, ⟨rfl, rfl⟩,
      ⟨-, _, _, ⟨rfl, rfl⟩, closeParen, _, ⟨rfl, hclose⟩, openBrace, vs, ⟨rfl, hbrace⟩, body, _,
        hbody, rfl, rfl⟩ |
      ⟨hfront, params, _, hparams, closeParen, _, ⟨rfl, hclose⟩, openBrace, vs, ⟨rfl, hbrace⟩,
        body, _, hbody, rfl, rfl⟩⟩
    · exact ⟨name, openParen, _, [], closeParen, openBrace, vs, body, rfl, hname, hopen,
        .inl ⟨rfl, rfl⟩, hclose, hbrace, hbody, rfl⟩
    · exact ⟨name, openParen, _, params, closeParen, openBrace, vs, body, rfl, hname, hopen,
        .inr ⟨by simpa using hfront, hparams⟩, hclose, hbrace, hbody, rfl⟩
  · rintro ⟨name, openParen, us, params, closeParen, openBrace, vs, body, rfl, hname, hopen,
      ⟨rfl, rfl⟩ | ⟨hfront, hparams⟩, hclose, hbrace, hbody, rfl⟩
    · exact ⟨name, _, ⟨rfl, hname⟩, openParen, _, ⟨rfl, hopen⟩, _, _, ⟨rfl, rfl⟩, .inl ⟨hclose,
        [], _, ⟨rfl, rfl⟩, closeParen, _, ⟨rfl, hclose⟩, openBrace, vs, ⟨rfl, hbrace⟩, body, rest,
        hbody, rfl, rfl⟩⟩
    · exact ⟨name, _, ⟨rfl, hname⟩, openParen, _, ⟨rfl, hopen⟩, _, _, ⟨rfl, rfl⟩, .inr ⟨by
        simp [hfront], params, _, hparams, closeParen, _, ⟨rfl, hclose⟩, openBrace, vs,
        ⟨rfl, hbrace⟩, body, rest, hbody, rfl, rfl⟩⟩

theorem reads_expressionStatement_iff {s : Stmt Unit} :
    (expressionStatement n).Reads ts s rest ↔ ∃ e semicolon,
      (expression n).Reads ts e (semicolon :: rest) ∧ semicolon.isPunct .semicolon ∧
      s = .expression e := by
  simp only [expressionStatement, reads_bind_iff, reads_expect_iff, reads_pure_iff]
  constructor
  · rintro ⟨e, _, he, semicolon, _, ⟨rfl, hsemicolon⟩, rfl, rfl⟩
    exact ⟨e, semicolon, he, hsemicolon, rfl⟩
  · rintro ⟨e, semicolon, he, hsemicolon, rfl⟩
    exact ⟨e, _, he, semicolon, _, ⟨rfl, hsemicolon⟩, rfl, rfl⟩

/-- A conditional takes an `else` exactly where one stands behind its first branch. -/
theorem reads_ifStatement_iff {inner : Rule (Stmt Unit)} {s : Stmt Unit} :
    (ifStatement inner n).Reads ts s rest ↔
      ∃ openParen us e closeParen vs thenBranch middle, ts = openParen :: us ∧
        openParen.isPunct .leftParen ∧ (expression n).Reads us e (closeParen :: vs) ∧
        closeParen.isPunct .rightParen ∧ inner.Reads vs thenBranch middle ∧
        ((∃ keyword ws elseBranch, middle = keyword :: ws ∧ keyword.isKeyword .else ∧
            inner.Reads ws elseBranch rest ∧ s = .if e thenBranch (some elseBranch)) ∨
          (∀ t ∈ middle.head?, t.isKeyword .else = false) ∧ rest = middle ∧
            s = .if e thenBranch none) := by
  simp only [ifStatement, reads_bind_iff, reads_expect_iff]
  constructor
  · rintro ⟨openParen, us, ⟨rfl, hopen⟩, e, _, he, closeParen, vs, ⟨rfl, hclose⟩, thenBranch,
      middle, hthen, next, ws, hnext, h⟩
    refine ⟨openParen, us, e, closeParen, vs, thenBranch, middle, rfl, hopen, he, hclose, hthen, ?_⟩
    cases next with
    | some keyword =>
      obtain ⟨rfl, hkeyword⟩ := reads_accept?_some_iff.mp hnext
      obtain ⟨elseBranch, _, helse, hnode⟩ := reads_bind_iff.mp h
      obtain ⟨rfl, rfl⟩ := reads_pure_iff.mp hnode
      exact .inl ⟨keyword, ws, elseBranch, rfl, hkeyword, helse, rfl⟩
    | none =>
      obtain ⟨rfl, helse⟩ := reads_accept?_none_iff.mp hnext
      obtain ⟨rfl, rfl⟩ := reads_pure_iff.mp h
      exact .inr ⟨helse, rfl, rfl⟩
  · rintro ⟨openParen, us, e, closeParen, vs, thenBranch, middle, rfl, hopen, he, hclose, hthen,
      ⟨keyword, ws, elseBranch, rfl, hkeyword, helse, rfl⟩ | ⟨helse, rfl, rfl⟩⟩
    · exact ⟨openParen, us, ⟨rfl, hopen⟩, e, _, he, closeParen, vs, ⟨rfl, hclose⟩, thenBranch, _,
        hthen, some keyword, ws, reads_accept?_some_iff.mpr ⟨rfl, hkeyword⟩,
        reads_bind_iff.mpr ⟨elseBranch, rest, helse, reads_pure_iff.mpr ⟨rfl, rfl⟩⟩⟩
    · exact ⟨openParen, us, ⟨rfl, hopen⟩, e, _, he, closeParen, vs, ⟨rfl, hclose⟩, thenBranch, _,
        hthen, none, rest, reads_accept?_none_iff.mpr ⟨rfl, helse⟩,
        reads_pure_iff.mpr ⟨rfl, rfl⟩⟩

/-- How the first clause of a `for` is read, with its semicolon. -/
def ReadsInitializer (n : Nat) (ts : List Token) (initializer : Option (Stmt Unit))
    (rest : List Token) : Prop :=
  (∃ semicolon, ts = semicolon :: rest ∧ semicolon.isPunct .semicolon ∧ initializer = none) ∨
  (∃ keyword us first, ts = keyword :: us ∧ keyword.isKeyword .var ∧
    (varDeclaration n).Reads us first rest ∧ initializer = some first) ∨
  (∀ t ∈ ts.head?, (t.isPunct .semicolon || t.isKeyword .var) = false) ∧
    ∃ first, (expressionStatement n).Reads ts first rest ∧ initializer = some first

theorem reads_forInitializer_iff {initializer : Option (Stmt Unit)} :
    (forInitializer n).Reads ts initializer rest ↔ ReadsInitializer n ts initializer rest := by
  simp only [forInitializer, reads_bind_iff]
  constructor
  · rintro ⟨next, us, hnext, h⟩
    cases next with
    | none =>
      obtain ⟨rfl, hother⟩ := reads_accept?_none_iff.mp hnext
      obtain ⟨first, hfirst, rfl⟩ := reads_map_iff.mp h
      exact .inr (.inr ⟨hother, first, hfirst, rfl⟩)
    | some t =>
      obtain ⟨rfl, ht⟩ := reads_accept?_some_iff.mp hnext
      rcases reads_ite_iff.mp h with ⟨hvar, h⟩ | ⟨hvar, h⟩
      · obtain ⟨first, hfirst, rfl⟩ := reads_map_iff.mp h
        exact .inr (.inl ⟨t, us, first, rfl, hvar, hfirst, rfl⟩)
      · obtain ⟨rfl, rfl⟩ := reads_pure_iff.mp h
        exact .inl ⟨t, rfl, by simpa [hvar] using ht, rfl⟩
  · rintro (⟨t, rfl, ht, rfl⟩ | ⟨keyword, us, first, rfl, hkeyword, hfirst, rfl⟩ |
      ⟨hother, first, hfirst, rfl⟩)
    · have hvar : ¬ t.isKeyword .var = true := by
        simp [Token.isKeyword, Token.isPunct_iff.mp ht]
      exact ⟨some t, rest, reads_accept?_some_iff.mpr ⟨rfl, by simp [ht]⟩,
        reads_ite_iff.mpr (.inr ⟨hvar, reads_pure_iff.mpr ⟨rfl, rfl⟩⟩)⟩
    · exact ⟨some keyword, us, reads_accept?_some_iff.mpr ⟨rfl, by simp [hkeyword]⟩,
        reads_ite_iff.mpr (.inl ⟨hkeyword, reads_map_iff.mpr ⟨first, hfirst, rfl⟩⟩)⟩
    · exact ⟨none, ts, reads_accept?_none_iff.mpr ⟨rfl, hother⟩,
        reads_map_iff.mpr ⟨first, hfirst, rfl⟩⟩

theorem reads_forClauses_iff {inner : Rule (Stmt Unit)} {initializer : Option (Stmt Unit)}
    {s : Stmt Unit} :
    (forClauses inner n initializer).Reads ts s rest ↔
      ∃ condition semicolon us increment closeParen vs body,
        (optionalExpression n .semicolon).Reads ts condition (semicolon :: us) ∧
        semicolon.isPunct .semicolon ∧
        (optionalExpression n .rightParen).Reads us increment (closeParen :: vs) ∧
        closeParen.isPunct .rightParen ∧ inner.Reads vs body rest ∧
        s = forLoop initializer condition increment body := by
  simp only [forClauses, reads_bind_iff, reads_expect_iff, reads_pure_iff]
  constructor
  · rintro ⟨condition, _, hcondition, semicolon, us, ⟨rfl, hsemicolon⟩, increment, _, hincrement,
      closeParen, vs, ⟨rfl, hclose⟩, body, _, hbody, rfl, rfl⟩
    exact ⟨condition, semicolon, us, increment, closeParen, vs, body, hcondition, hsemicolon,
      hincrement, hclose, hbody, rfl⟩
  · rintro ⟨condition, semicolon, us, increment, closeParen, vs, body, hcondition, hsemicolon,
      hincrement, hclose, hbody, rfl⟩
    exact ⟨condition, _, hcondition, semicolon, us, ⟨rfl, hsemicolon⟩, increment, _, hincrement,
      closeParen, vs, ⟨rfl, hclose⟩, body, rest, hbody, rfl, rfl⟩

/-- A loop is an initializer and the clauses behind it. -/
theorem reads_forStatement_iff {inner : Rule (Stmt Unit)} {s : Stmt Unit} :
    (forStatement inner n).Reads ts s rest ↔
      ∃ openParen us initializer vs condition semicolon ws increment closeParen xs body,
        ts = openParen :: us ∧ openParen.isPunct .leftParen ∧
        ReadsInitializer n us initializer vs ∧
        (optionalExpression n .semicolon).Reads vs condition (semicolon :: ws) ∧
        semicolon.isPunct .semicolon ∧
        (optionalExpression n .rightParen).Reads ws increment (closeParen :: xs) ∧
        closeParen.isPunct .rightParen ∧ inner.Reads xs body rest ∧
        s = forLoop initializer condition increment body := by
  simp only [forStatement_eq, reads_bind_iff, reads_expect_iff, reads_forInitializer_iff,
    reads_forClauses_iff]
  constructor
  · rintro ⟨openParen, us, ⟨rfl, hopen⟩, initializer, vs, hfirst, condition, semicolon, ws,
      increment, closeParen, xs, body, hparts⟩
    exact ⟨openParen, us, initializer, vs, condition, semicolon, ws, increment, closeParen, xs,
      body, rfl, hopen, hfirst, hparts⟩
  · rintro ⟨openParen, us, initializer, vs, condition, semicolon, ws, increment, closeParen, xs,
      body, rfl, hopen, hfirst, hparts⟩
    exact ⟨openParen, us, ⟨rfl, hopen⟩, initializer, vs, hfirst, condition, semicolon, ws,
      increment, closeParen, xs, body, hparts⟩

end Lox.Grammar
