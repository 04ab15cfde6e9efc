import Lox.Grammar.Statement
import Lox.Proofs.Grammar.Reading

/-!
No rule is given up in silence: a reply without a tree comes with an error. A reading of a list of
declarations that reports nothing has therefore dropped none of them.
-/

namespace Lox.Grammar

open Rule

variable {inner : Rule (Expr Unit)} {nested other : Rule (Stmt Unit)}

/-- Where no primary expression stands, this is reported. -/
theorem loud_primary (hinner : inner.Loud) : (primary inner).Loud := by
  refine loud_peek.bind fun t => ?_
  split
  case h_7 =>
    refine loud_take.bind fun _ => hinner.bind fun e => ?_
    exact (loud_expect _ _).bind fun _ => loud_pure _
  case h_8 => exact loud_fail _
  all_goals exact loud_take.seqRight (loud_pure _)

/-- A report on the way takes no tree away. -/
theorem loud_reporting {α : Type} {many : Prop} [Decidable many] {problem : SyntaxProblem}
    {others : Rule α} (hothers : others.Loud) :
    (if many then peek >>= fun t => report t problem >>= fun _ => others else others).Loud := by
  split
  · exact loud_peek.bind fun _ => (loud_report _ _).bind fun _ => hothers
  · exact hothers

/-- Arguments are read or something is reported. -/
theorem loud_arguments (hinner : inner.Loud) (n count : Nat) :
    (arguments inner n count).Loud := by
  induction n generalizing count with
  | zero => exact loud_fail _
  | succ n ih =>
    refine loud_reporting ?_
    refine hinner.bind fun e => (loud_accept? _).bind fun next => ?_
    cases next with
    | none => exact loud_pure _
    | some comma => exact (ih _).bind fun _ => loud_pure _

theorem loud_calls (hinner : inner.Loud) (n : Nat) (callee : Expr Unit) :
    (calls inner n callee).Loud := by
  induction n generalizing callee with
  | zero => exact loud_pure _
  | succ n ih =>
    refine (loud_accept? _).bind fun next => ?_
    cases next with
    | none => exact loud_pure _
    | some openParen =>
      refine loud_peek.bind fun t => ?_
      simp only
      split
      · exact (loud_pure _).bind fun args => (loud_expect _ _).bind fun _ => ih _
      · exact (loud_arguments hinner _ _).bind fun args => (loud_expect _ _).bind fun _ => ih _

theorem loud_unary (hinner : inner.Loud) (n : Nat) : (unary inner n).Loud := by
  have hcall (n : Nat) : (call inner n).Loud :=
    (loud_primary hinner).bind fun _ => loud_calls hinner _ _
  induction n with
  | zero => exact hcall 0
  | succ n ih =>
    refine (loud_accept? _).bind fun next => ?_
    cases next with
    | none => exact hcall _
    | some operator => exact ih.bind fun _ => loud_pure _

/-- A chain is given up only where an operand is. -/
theorem loud_chain {node : Expr Unit → Token → Expr Unit → Expr Unit} {isOperator : Token → Bool}
    {operand : Rule (Expr Unit)} (hoperand : operand.Loud) (n : Nat) (left : Expr Unit) :
    (chain node isOperator operand n left).Loud := by
  induction n generalizing left with
  | zero => exact loud_pure _
  | succ n ih =>
    refine (loud_accept? _).bind fun next => ?_
    cases next with
    | none => exact loud_pure _
    | some operator => exact hoperand.bind fun right => ih _

theorem loud_disjunction (hinner : inner.Loud) (n : Nat) : (disjunction inner n).Loud := by
  have hproduct : (product inner n).Loud :=
    (loud_unary hinner n).bind fun _ => loud_chain (loud_unary hinner n) _ _
  have hsum : (sum inner n).Loud := hproduct.bind fun _ => loud_chain hproduct _ _
  have hcomparison : (comparison inner n).Loud := hsum.bind fun _ => loud_chain hsum _ _
  have hequality : (equality inner n).Loud := hcomparison.bind fun _ => loud_chain hcomparison _ _
  have hconjunction : (conjunction inner n).Loud := hequality.bind fun _ => loud_chain hequality _ _
  exact hconjunction.bind fun _ => loud_chain hconjunction _ _

/-- An expression is read or something is reported. -/
theorem loud_expression (n : Nat) : (expression n).Loud := by
  induction n with
  | zero => exact loud_fail _
  | succ n ih =>
    refine (loud_disjunction ih _).bind fun target => (loud_accept? _).bind fun next => ?_
    cases next with
    | none => exact loud_pure _
    | some equals =>
      refine ih.bind fun value => ?_
      cases target with
      | var => exact loud_pure _
      | _ => exact (loud_report _ _).bind fun _ => loud_pure _

theorem loud_optionalExpression (n : Nat) (close : Punct) : (optionalExpression n close).Loud := by
  refine loud_peek.bind fun t => ?_
  split
  · exact loud_pure _
  · exact (loud_expression n).map

/-- A variable declaration is read or something is reported. -/
theorem loud_varDeclaration (n : Nat) : (varDeclaration n).Loud := by
  refine (loud_expect _ _).bind fun name => (loud_accept? _).bind fun next => ?_
  have hend (initializer : Option (Expr Unit)) : (do
      let _ ← expect (·.isPunct .semicolon) .endOfVariable
      pure (.var name initializer) : Rule (Stmt Unit)).Loud :=
    (loud_expect _ _).bind fun _ => loud_pure _
  cases next with
  | none => exact (loud_pure _).bind fun _ => hend _
  | some equals => exact (loud_expression n).map.bind fun _ => hend _

theorem loud_expressionStatement (n : Nat) : (expressionStatement n).Loud :=
  (loud_expression n).bind fun _ => (loud_expect _ _).bind fun _ => loud_pure _

/-- A list of declarations is always read, with or without all of them. -/
theorem declarations_ne_none (nested : Rule (Stmt Unit)) (closed : Token → Bool) (n : Nat)
    (ts : List Token) : (declarations nested closed n ts).result ≠ none := by
  induction n generalizing ts with
  | zero => simp [declarations, pure_apply]
  | succ n ih =>
    simp only [declarations]
    split
    · simp
    · simpa using ih _

/-- A block is read or something is reported. -/
theorem loud_block (nested : Rule (Stmt Unit)) (n : Nat) : (block nested n).Loud := by
  refine Loud.bind (fun ts hnone => ?_) fun _ => (loud_expect _ _).bind fun _ => loud_pure _
  exact absurd hnone (declarations_ne_none nested _ n ts)

theorem loud_parameters (n count : Nat) : (parameters n count).Loud := by
  induction n generalizing count with
  | zero => exact loud_fail _
  | succ n ih =>
    refine loud_reporting ?_
    refine (loud_expect _ _).bind fun p => (loud_accept? _).bind fun next => ?_
    cases next with
    | none => exact loud_pure _
    | some comma => exact (ih _).bind fun _ => loud_pure _

/-- A function is read or something is reported. -/
theorem loud_function (nested : Rule (Stmt Unit)) (n : Nat) : (function nested n).Loud := by
  refine (loud_expect _ _).bind fun name => (loud_expect _ _).bind fun _ =>
    loud_peek.bind fun t => ?_
  have hend (params : List Token) : (do
      let _ ← expect (·.isPunct .rightParen) .closeParameters
      let _ ← expect (·.isPunct .leftBrace) .openBody
      let body ← block nested n
      pure (.function name params body) : Rule (Stmt Unit)).Loud :=
    (loud_expect _ _).bind fun _ => (loud_expect _ _).bind fun _ =>
      (loud_block nested n).bind fun _ => loud_pure _
  simp only
  split
  · exact (loud_pure _).bind fun _ => hend _
  · exact (loud_parameters n 0).bind fun _ => hend _

/-- The first clause of a `for`, with its semicolon. -/
def forInitializer (n : Nat) : Rule (Option (Stmt Unit)) := do
  match ← accept? fun t => t.isPunct .semicolon || t.isKeyword .var with
  | some t => if t.isKeyword .var then some <$> varDeclaration n else pure none
  | none => some <$> expressionStatement n

/-- A `for` behind its first clause. -/
def forClauses (inner : Rule (Stmt Unit)) (n : Nat) (initializer : Option (Stmt Unit)) :
    Rule (Stmt Unit) := do
  let condition ← optionalExpression n .semicolon
  let _ ← expect (·.isPunct .semicolon) .endOfLoopCondition
  let increment ← optionalExpression n .rightParen
  let _ ← expect (·.isPunct .rightParen) .closeFor
  let body ← inner
  pure (forLoop initializer condition increment body)

/-- Whatever the first clause of a `for` is, the others are read in the same way. -/
theorem forStatement_eq (inner : Rule (Stmt Unit)) (n : Nat) :
    forStatement inner n = expect (·.isPunct .leftParen) .openFor >>= fun _ =>
      forInitializer n >>= forClauses inner n := by
  simp only [forStatement, forInitializer, Rule.bind_assoc]
  congr 1
  funext _
  congr 1
  funext next
  cases next with
  | none => rfl
  | some t =>
    dsimp only
    split <;> rfl

theorem loud_forInitializer (n : Nat) : (forInitializer n).Loud := by
  refine (loud_accept? _).bind fun next => ?_
  cases next with
  | none => exact (loud_expressionStatement n).map
  | some t =>
    dsimp only
    split
    · exact (loud_varDeclaration n).map
    · exact loud_pure _

theorem loud_forClauses (hother : other.Loud) (n : Nat) (initializer : Option (Stmt Unit)) :
    (forClauses other n initializer).Loud :=
  (loud_optionalExpression n _).bind fun _ => (loud_expect _ _).bind fun _ =>
    (loud_optionalExpression n _).bind fun _ => (loud_expect _ _).bind fun _ =>
      hother.bind fun _ => loud_pure _

/-- A loop with clauses is read or something is reported. -/
theorem loud_forStatement (hother : other.Loud) (n : Nat) : (forStatement other n).Loud := by
  rw [forStatement_eq]
  exact (loud_expect _ _).bind fun _ => (loud_forInitializer n).bind (loud_forClauses hother n)

theorem loud_anyStatement (hother : other.Loud) (n : Nat) : (anyStatement other nested n).Loud := by
  have hcondition {α : Type} {slot slot' : Slot} {next : Expr Unit → Rule α}
      (hnext : ∀ e, (next e).Loud) : (do
        let _ ← expect (·.isPunct .leftParen) slot
        let condition ← expression n
        let _ ← expect (·.isPunct .rightParen) slot'
        next condition : Rule α).Loud :=
    (loud_expect _ _).bind fun _ => (loud_expression n).bind fun _ =>
      (loud_expect _ _).bind fun _ => hnext _
  refine loud_peek.bind fun t => ?_
  split
  · exact loud_take.seqRight (loud_forStatement hother n)
  · refine loud_take.seqRight (hcondition fun e => hother.bind fun s =>
      (loud_accept? _).bind fun next => ?_)
    cases next with
    | none => exact loud_pure _
    | some keyword => exact hother.bind fun _ => loud_pure _
  · exact loud_take.seqRight (hcondition fun e => hother.bind fun _ => loud_pure _)
  · exact loud_take.seqRight ((loud_optionalExpression n _).bind fun _ =>
      (loud_expect _ _).bind fun _ => loud_pure _)
  · exact loud_take.seqRight (loud_block nested n).map
  · exact loud_take.seqRight ((loud_expression n).bind fun _ =>
      (loud_expect _ _).bind fun _ => loud_pure _)
  · exact loud_expressionStatement n

/-- A statement is read or something is reported. -/
theorem loud_statement (n : Nat) : (statement n).Loud := by
  induction n with
  | zero => exact loud_fail _
  | succ n ih => exact loud_anyStatement ih _

/-- Recovery takes no report back. -/
theorem loud_recovering {r : Rule (Stmt Unit)} (h : r.Loud) : (recovering r).Loud := by
  intro ts hnone
  unfold recovering at hnone ⊢
  split at hnone
  · cases hnone
  · rename_i errors rest hreply
    simpa [hreply] using h ts (by rw [hreply])

/-- Every declaration that leaves no tree is reported. -/
theorem loud_declaration (n : Nat) : (declaration n).Loud := by
  cases n with
  | zero => exact loud_fail _
  | succ n =>
    refine loud_recovering (loud_peek.bind fun t => ?_)
    split
    · exact loud_take.seqRight (loud_function _ _)
    · exact loud_take.seqRight (loud_varDeclaration _)
    · exact loud_anyStatement (loud_statement n) _

end Lox.Grammar
