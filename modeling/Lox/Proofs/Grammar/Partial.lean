import Lox.Proofs.Scoping.Proper

namespace Lox

/-- Whatever the rule replies with has the property. -/
def Rule.Yields {α : Type} (P : α → Prop) (r : Rule α) : Prop :=
  ∀ ts a, (r ts).result = some a → P a

namespace Rule.Yields

variable {α β : Type} {P : α → Prop} {Q : β → Prop} {r : Rule α}

theorem pure {a : α} (h : P a) : Rule.Yields P (Pure.pure a) := by
  rintro ts b hb
  obtain rfl := Option.some.inj hb
  exact h

theorem fail (problem : SyntaxProblem) : Rule.Yields P (Rule.fail problem) :=
  nofun

theorem any (r : Rule α) : r.Yields fun _ => True :=
  fun _ _ _ => trivial

/-- What one rule yields may be used by the next. -/
theorem bind {next : α → Rule β} (h : r.Yields P) (hnext : ∀ a, P a → (next a).Yields Q) :
    (r >>= next).Yields Q := by
  intro ts b hb
  cases hresult : (r ts).result with
  | none =>
    rw [bind_apply_of_none hresult] at hb
    cases hb
  | some a =>
    rw [bind_apply_of_some hresult] at hb
    exact hnext a (h ts a hresult) _ b hb

/-- Only the last of several rules says what they reply with. -/
theorem behind {next : α → Rule β} (h : ∀ a, (next a).Yields Q) : (r >>= next).Yields Q :=
  (any r).bind fun a _ => h a

/-- What is yielded may be changed. -/
theorem map {f : α → β} (h : r.Yields P) (hf : ∀ a, P a → Q (f a)) : (f <$> r).Yields Q :=
  h.bind fun a ha => pure (hf a ha)

theorem take {next : Rule β} (h : next.Yields Q) : (Rule.take *> next).Yields Q :=
  behind fun _ => h

end Rule.Yields

namespace Grammar

open Rule

variable {inner nested : Rule (Stmt Unit)} {n : Nat}

/-- A variable declaration that can be read is proper, whatever was reported before it. -/
theorem proper_varDeclaration (n : Nat) : (varDeclaration n).Yields Stmt.Proper := by
  refine .behind fun _ => .behind fun equals => ?_
  cases equals <;> exact .behind fun _ => .behind fun _ => .pure trivial

/-- An expression statement may stand as a branch or a body. -/
theorem plain_expressionStatement (n : Nat) : (expressionStatement n).Yields Stmt.Plain :=
  .behind fun _ => .behind fun _ => .pure ⟨trivial, rfl⟩

theorem plain_printStatement (n : Nat) : (printStatement n).Yields Stmt.Plain :=
  .behind fun _ => .behind fun _ => .pure ⟨trivial, rfl⟩

theorem plain_returnStatement (n : Nat) (keyword : Token) :
    (returnStatement n keyword).Yields Stmt.Plain :=
  .behind fun _ => .behind fun _ => .pure ⟨trivial, rfl⟩

/-- All declarations that are kept are proper, also where others are dropped. -/
theorem properAll_declarations (hnested : nested.Yields Stmt.Proper) (closed : Token → Bool)
    (n : Nat) : (declarations nested closed n).Yields Stmt.ProperAll := by
  induction n with
  | zero => exact .pure trivial
  | succ n ih =>
    intro ts ss hss
    simp only [declarations] at hss
    split at hss
    · obtain rfl := Option.some.inj hss
      trivial
    · obtain ⟨others, hothers, rfl⟩ := Option.map_eq_some_iff.mp hss
      have hrest := ih _ others hothers
      cases hfirst : (nested ts).result with
      | none => exact hrest
      | some s => exact ⟨hnested ts s hfirst, hrest⟩

theorem properAll_block (hnested : nested.Yields Stmt.Proper) (n : Nat) :
    (block nested n).Yields Stmt.ProperAll :=
  (properAll_declarations hnested _ n).bind fun _ hbody => .behind fun _ => .pure hbody

/-- A function that can be read is proper. -/
theorem proper_function (hnested : nested.Yields Stmt.Proper) (n : Nat) :
    (function nested n).Yields Stmt.Proper := by
  refine .behind fun _ => .behind fun _ => .behind fun _ => ?_
  dsimp only
  split <;> exact .behind fun _ => .behind fun _ => .behind fun _ =>
    (properAll_block hnested n).bind fun _ hbody => .pure hbody

/-- The branches of a conditional are plain statements. -/
theorem plain_ifStatement (hinner : inner.Yields Stmt.Plain) (n : Nat) :
    (ifStatement inner n).Yields Stmt.Plain := by
  refine .behind fun _ => .behind fun _ => .behind fun _ => hinner.bind fun s hs => ?_
  refine .behind fun keyword => ?_
  cases keyword with
  | none => exact .pure ⟨hs, rfl⟩
  | some _ => exact hinner.bind fun s' hs' => .pure ⟨⟨hs, hs'⟩, rfl⟩

theorem plain_whileStatement (hinner : inner.Yields Stmt.Plain) (n : Nat) :
    (whileStatement inner n).Yields Stmt.Plain :=
  .behind fun _ => .behind fun _ => .behind fun _ => hinner.bind fun _ hs => .pure ⟨hs, rfl⟩

/-- A loop is plain, since its initializer lies in a block. -/
theorem plain_forLoop {initializer : Option (Stmt Unit)} {condition increment : Option (Expr Unit)}
    {body : Stmt Unit} (hfirst : ∀ s ∈ initializer, s.Proper) (hbody : body.Plain) :
    (forLoop initializer condition increment body).Plain := by
  have hloop (t : Stmt Unit) (ht : t.Plain) : (forLoop initializer condition none t).Plain := by
    cases initializer with
    | none => exact ⟨ht, rfl⟩
    | some first => exact ⟨⟨hfirst first rfl, ht, trivial⟩, rfl⟩
  cases increment with
  | none => exact hloop _ hbody
  | some e => exact hloop (.block [body, .expression e]) ⟨⟨hbody.1, trivial, trivial⟩, rfl⟩

/-- An initializer is a proper declaration or statement. -/
theorem proper_forInitializer (n : Nat) :
    (forInitializer n).Yields fun initializer => ∀ s ∈ initializer, s.Proper := by
  have hsome (s : Stmt Unit) (hs : s.Proper) : ∀ first ∈ some s, first.Proper := by
    rintro _ ⟨⟩
    exact hs
  refine .behind fun next => ?_
  cases next with
  | none => exact (plain_expressionStatement n).map fun s hs => hsome s hs.1
  | some t =>
    dsimp only
    split
    · exact (proper_varDeclaration n).map hsome
    · exact .pure nofun

theorem plain_forClauses (hinner : inner.Yields Stmt.Plain) (n : Nat)
    {initializer : Option (Stmt Unit)} (hfirst : ∀ s ∈ initializer, s.Proper) :
    (forClauses inner n initializer).Yields Stmt.Plain :=
  .behind fun _ => .behind fun _ => .behind fun _ => .behind fun _ =>
    hinner.bind fun _ hbody => .pure (plain_forLoop hfirst hbody)

theorem plain_forStatement (hinner : inner.Yields Stmt.Plain) (n : Nat) :
    (forStatement inner n).Yields Stmt.Plain := by
  rw [forStatement_eq]
  exact .behind fun _ => (proper_forInitializer n).bind fun _ hfirst =>
    plain_forClauses hinner n hfirst

/-- A statement that can be read is plain. -/
theorem plain_anyStatement (hinner : inner.Yields Stmt.Plain) (hnested : nested.Yields Stmt.Proper)
    (n : Nat) : (anyStatement inner nested n).Yields Stmt.Plain := by
  refine .behind fun t => ?_
  split
  · exact .take (plain_forStatement hinner n)
  · exact .take (plain_ifStatement hinner n)
  · exact .take (plain_whileStatement hinner n)
  · exact .take (plain_returnStatement n t)
  · exact .take ((properAll_block hnested n).map fun _ hbody => ⟨hbody, rfl⟩)
  · exact .take (plain_printStatement n)
  · exact plain_expressionStatement n

/-- Recovery adds no trees. -/
theorem yields_recovering {P : Stmt Unit → Prop} {r : Rule (Stmt Unit)}
    (h : r.Yields P) : (recovering r).Yields P := by
  intro ts s hs
  refine h ts s ?_
  rw [← hs, Grammar.recovering]
  split <;> rename_i hreply <;> rw [hreply]

/-- A declaration that can be read is proper. -/
theorem proper_anyDeclaration (hinner : inner.Yields Stmt.Plain)
    (hnested : nested.Yields Stmt.Proper) (n : Nat) :
    (anyDeclaration inner nested n).Yields Stmt.Proper := by
  unfold anyDeclaration
  refine yields_recovering (.behind fun t => ?_)
  split
  · exact .take (proper_function hnested n)
  · exact .take (proper_varDeclaration n)
  · exact fun ts s hs => (plain_anyStatement hinner hnested n ts s hs).1

/-- Statements and declarations are bounded together, because each contains the other. -/
theorem plain_statement_declaration (n : Nat) :
    (statement n).Yields Stmt.Plain ∧ (declaration n).Yields Stmt.Proper := by
  induction n with
  | zero => exact ⟨.fail _, .fail _⟩
  | succ n ih =>
    exact ⟨plain_anyStatement ih.1 ih.2 (n + 1), proper_anyDeclaration ih.1 ih.2 (n + 1)⟩

/-- What is read of a program is proper, even if there are errors. -/
theorem properAll_program (tokens : List Token) : Stmt.ProperAll (program tokens).statements := by
  have hall := properAll_declarations (plain_statement_declaration tokens.length).2
    (fun _ => false) tokens.length tokens
  unfold program
  dsimp only
  cases hresult : (declarations (declaration tokens.length) (fun _ => false) tokens.length
      tokens).result with
  | none => trivial
  | some ss => exact hall ss hresult

end Grammar

end Lox
