import Mathlib.Order.Interval.Finset.Nat
import Mathlib.Order.Interval.Multiset
import Mathlib.Tactic
import Lox.Proofs.Grammar.Drawing
import Lox.Proofs.Syntax.Alike

/-!
The grammar with identities reads what the grammar reads, and every reference of what it returns has
an identity that was drawn for it: none is drawn twice, and none that is dropped comes back.
-/

namespace Lox

/-- The identities that are handed out from one count on, up to another. -/
def handedOut (first last : Nat) : Multiset RefId :=
  (Multiset.Ico first last).map (· % identityCount)

theorem handedOut_self (n : Nat) : handedOut n n = 0 := by
  rw [handedOut, Multiset.Ico_self, Multiset.map_zero]

/-- One drawing more hands out the next identity. -/
theorem handedOut_succ (n : Nat) : handedOut n (n + 1) = {n % identityCount} := by
  have hIco : Multiset.Ico n (n + 1) = {n} := by
    change (Finset.Ico n (n + 1)).val = _
    rw [Nat.Ico_succ_singleton]
    rfl
  rw [handedOut, hIco, Multiset.map_singleton]

/-- What is handed out in two stretches is handed out together. -/
theorem handedOut_add {a b c : Nat} (hab : a ≤ b) (hbc : b ≤ c) :
    handedOut a b + handedOut b c = handedOut a c := by
  rw [handedOut, handedOut, ← Multiset.map_add, Multiset.Ico_add_Ico_eq_Ico hab hbc, handedOut]

/-- As long as the counter has not begun again, identities are their numbers. -/
theorem handedOut_eq_Ico {first last : Nat} (h : last ≤ identityCount) :
    handedOut first last = Multiset.Ico first last := by
  refine (Multiset.map_congr rfl fun id hid => ?_).trans (Multiset.map_id _)
  exact Nat.mod_eq_of_lt (Nat.lt_of_lt_of_le (Multiset.mem_Ico.mp hid).2 h)

section Draws

variable {α β γ δ : Type} {K : α → β → Multiset RefId → Prop} {K' : γ → δ → Multiset RefId → Prop}
  {r : Rule α} {d : Drawing β}

/-- The replies have the same errors and leave the same tokens. If there are results, they are
    related, by the identities that were handed out in between. -/
structure Draws.Agrees (K : α → β → Multiset RefId → Prop) (drawn : Nat) (reply : Reply α)
    (drawing : Reply β × Nat) : Prop where
  le : drawn ≤ drawing.2
  errors : drawing.1.errors = reply.errors
  rest : drawing.1.rest = reply.rest
  result : Option.Rel (fun a b => K a b (handedOut drawn drawing.2)) reply.result drawing.1.result

/-- The rules agree wherever they are applied. -/
def Draws (K : α → β → Multiset RefId → Prop) (r : Rule α) (d : Drawing β) : Prop :=
  ∀ drawn ts, Draws.Agrees K drawn (r ts) (d drawn ts)

namespace Draws

theorem pure {a : α} {b : β} (h : K a b 0) : Draws K (Pure.pure a) (Pure.pure b) := by
  refine fun drawn ts => ⟨Nat.le_refl _, rfl, rfl, .some ?_⟩
  change K a b (handedOut drawn drawn)
  rwa [handedOut_self]

/-- What the second rules draw comes to what the first have drawn. -/
theorem bind {next : α → Rule γ} {next' : β → Drawing δ} (h : Draws K r d)
    (hnext : ∀ a b ids, K a b ids →
      Draws (fun c e ids' => K' c e (ids + ids')) (next a) (next' b)) :
    Draws K' (r >>= next) (d >>= next') := by
  intro drawn ts
  obtain ⟨hle, herrors, hrest, hresult⟩ := h drawn ts
  change Agrees K' drawn (Rule.bind r next ts) (Drawing.bind d next' drawn ts)
  unfold Rule.bind Drawing.bind
  generalize r ts = reply at *
  generalize d drawn ts = drawing at *
  obtain ⟨result, errors, rest⟩ := reply
  obtain ⟨⟨result', errors', rest'⟩, drawn'⟩ := drawing
  obtain rfl : errors' = errors := herrors
  obtain rfl : rest' = rest := hrest
  cases hresult with
  | none => exact ⟨hle, rfl, rfl, .none⟩
  | some hK =>
    obtain ⟨hle', herrors', hrest', hresult'⟩ := hnext _ _ _ hK drawn' rest'
    rw [handedOut_add hle hle'] at hresult'
    exact ⟨hle.trans hle', congrArg _ herrors', hrest', hresult'⟩

/-- A rule without references is the same with identities. -/
theorem lift {r : Rule α} {K : α → α → Multiset RefId → Prop} (h : ∀ a, K a a 0) :
    Draws K r (Drawing.lift r) := by
  refine fun drawn ts => ⟨Nat.le_refl _, rfl, rfl, ?_⟩
  change Option.Rel (fun a b => K a b (handedOut drawn drawn)) (r ts).result (r ts).result
  rw [handedOut_self]
  cases (r ts).result with
  | none => exact .none
  | some a => exact .some (h a)

/-- A rule that draws nothing may stand in front of one that draws. -/
theorem lift_bind {r : Rule α} {next : α → Rule γ} {next' : α → Drawing δ}
    (h : ∀ a, Draws K' (next a) (next' a)) :
    Draws K' (r >>= next) (Drawing.lift r >>= next') := by
  refine bind (K := fun a b ids => b = a ∧ ids = 0) (lift fun a => ⟨rfl, rfl⟩) ?_
  rintro a _ _ ⟨rfl, rfl⟩
  simpa only [zero_add] using h _

theorem fail {problem : SyntaxProblem} :
    Draws K (Rule.fail problem) (Drawing.lift (Rule.fail problem)) :=
  fun _ _ => ⟨Nat.le_refl _, rfl, rfl, .none⟩

/-- An identity is drawn where the grammar without identities has nothing to do. -/
theorem fresh_bind {r : Rule γ} {next : RefId → Drawing δ}
    (h : ∀ ref, Draws (fun c e ids => K' c e ({ref} + ids)) r (next ref)) :
    Draws K' r (Drawing.fresh >>= next) := by
  intro drawn ts
  obtain ⟨hle, herrors, hrest, hresult⟩ := h (drawn % identityCount) (drawn + 1) ts
  rw [← handedOut_succ, handedOut_add (Nat.le_succ drawn) hle] at hresult
  exact ⟨Nat.le_of_succ_le hle, herrors, hrest, hresult⟩

theorem ite {c : Prop} [Decidable c] {r' : Rule α} {d' : Drawing β} (h : Draws K r d)
    (h' : Draws K r' d') : Draws K (if c then r else r') (if c then d else d') := by
  by_cases hc : c
  · simpa only [hc, if_true] using h
  · simpa only [hc, if_false] using h'

/-- A report on the way draws nothing. -/
theorem reporting {many : Prop} [Decidable many] {problem : SyntaxProblem} (h : Draws K r d) :
    Draws K (if many then Rule.peek >>= fun t => Rule.report t problem >>= fun _ => r else r)
      (if many then Drawing.lift Rule.peek >>= fun t =>
        Drawing.lift (Rule.report t problem) >>= fun _ => d else d) :=
  .ite (.lift_bind fun _ => .lift_bind fun _ => h) h

/-- What is read may be changed on both sides, as long as the relation carries over. -/
theorem map {f : α → γ} {g : β → δ} (h : Draws K r d)
    (hfg : ∀ a b ids, K a b ids → K' (f a) (g b) ids) : Draws K' (f <$> r) (g <$> d) :=
  h.bind fun a b ids hK => pure (by simpa only [add_zero] using hfg a b ids hK)

end Draws

end Draws

/-- A tree and the same tree with identities, all of which come from `ids`, none more often than it
    is there. -/
structure Bears (alike : Prop) (references : List (RefId × Token)) (ids : Multiset RefId) :
    Prop where
  alike : alike
  identities : ↑(references.map Prod.fst) ≤ ids

namespace Bears

variable {p q s : Prop} {refs refs' : List (RefId × Token)} {ids ids' : Multiset RefId}

/-- More identities may have been handed out than a tree bears. -/
theorem mono (h : Bears p refs ids) (hle : ids ≤ ids') : Bears p refs ids' :=
  ⟨h.alike, h.identities.trans hle⟩

theorem imp (h : Bears p refs ids) (hpq : p → q) : Bears q refs ids :=
  ⟨hpq h.alike, h.identities⟩

theorem none (h : p) : Bears p [] 0 :=
  ⟨h, le_refl _⟩

/-- A single reference bears the identity that was drawn for it. -/
theorem one {ref : RefId} {name : Token} (h : p) : Bears p [(ref, name)] {ref} :=
  ⟨h, le_refl _⟩

/-- Trees that come from different identities can stand in one. -/
theorem both (h : Bears p refs ids) (h' : Bears q refs' ids') (hs : p → q → s) :
    Bears s (refs ++ refs') (ids + ids') := by
  refine ⟨hs h.alike h'.alike, ?_⟩
  rw [List.map_append, ← Multiset.coe_add]
  exact add_le_add h.identities h'.identities

end Bears

/-- The same expression, with its identities from `ids`. -/
def Expr.Bears (e : Expr Unit) (e' : Expr RefId) (ids : Multiset RefId) : Prop :=
  Lox.Bears (e.Alike (· = ·) (fun _ _ => True) e') e'.references ids

/-- The same for an expression that may be absent. -/
def Expr.MayBear (e : Option (Expr Unit)) (e' : Option (Expr RefId)) (ids : Multiset RefId) :
    Prop :=
  Option.Rel (fun e e' => Expr.Bears e e' ids) e e'

def Expr.BearsAll (es : List (Expr Unit)) (es' : List (Expr RefId)) (ids : Multiset RefId) :
    Prop :=
  Lox.Bears (Expr.AlikeAll (· = ·) (fun _ _ => True) es es') (Expr.referencesAll es') ids

def Stmt.Bears (s : Stmt Unit) (s' : Stmt RefId) (ids : Multiset RefId) : Prop :=
  Lox.Bears (s.Alike (· = ·) (fun _ _ => True) s') s'.references ids

def Stmt.MayBear (s : Option (Stmt Unit)) (s' : Option (Stmt RefId)) (ids : Multiset RefId) :
    Prop :=
  Option.Rel (fun s s' => Stmt.Bears s s' ids) s s'

def Stmt.BearsAll (ss : List (Stmt Unit)) (ss' : List (Stmt RefId)) (ids : Multiset RefId) :
    Prop :=
  Lox.Bears (Stmt.AlikeAll (· = ·) (fun _ _ => True) ss ss') (Stmt.referencesAll ss') ids

theorem Stmt.BearsAll.nil : Stmt.BearsAll [] [] 0 :=
  .none .nil

/-- A statement in front of others bears its own identities beside theirs. -/
theorem Stmt.Bears.cons {s : Stmt Unit} {s' : Stmt RefId} {ss : List (Stmt Unit)}
    {ss' : List (Stmt RefId)} {ids ids' : Multiset RefId} (h : s.Bears s' ids)
    (hrest : Stmt.BearsAll ss ss' ids') : Stmt.BearsAll (s :: ss) (s' :: ss') (ids + ids') :=
  h.both hrest .cons

theorem Stmt.BearsAll.block {ss : List (Stmt Unit)} {ss' : List (Stmt RefId)}
    {ids : Multiset RefId} (h : Stmt.BearsAll ss ss' ids) :
    (Stmt.block ss).Bears (.block ss') ids :=
  h.imp .block

namespace Grammar

open Rule

section Expressions

variable {inner operand : Rule (Expr Unit)} {inner' operand' : Drawing (Expr RefId)}

/-- A variable bears its own identity, and parentheses those of the expression in them. -/
theorem draws_primary (hinner : Draws Expr.Bears inner inner') :
    Draws Expr.Bears (primary inner) (Drawn.primary inner') := by
  have hliteral (v : Literal) : Draws Expr.Bears (take *> Pure.pure (.literal v))
      (Drawing.lift take *> Pure.pure (.literal v)) :=
    .lift_bind fun _ => .pure (.none .literal)
  refine .lift_bind fun t => ?_
  generalize t.kind = kind
  cases kind with
  | punct p =>
    cases p with
    | leftParen =>
      refine .lift_bind fun _ => hinner.bind fun e e' ids he => .lift_bind fun _ => .pure ?_
      rw [add_zero]
      exact he.imp .grouping
    | _ => exact .fail
  | keyword k =>
    cases k with
    | false | true | nil => exact hliteral _
    | _ => exact .fail
  | identifier =>
    refine .lift_bind fun _ => .fresh_bind fun ref => .pure ?_
    rw [add_zero]
    exact .one (.var trivial rfl)
  | number | string => exact hliteral _
  | eof => exact .fail

/-- The arguments of a call bear what was drawn for them. -/
theorem draws_arguments (hinner : Draws Expr.Bears inner inner') (n count : Nat) :
    Draws Expr.BearsAll (arguments inner n count) (Drawn.arguments inner' n count) := by
  induction n generalizing count with
  | zero => exact .fail
  | succ n ih =>
    refine .reporting (hinner.bind fun e e' ids he => .lift_bind fun comma => ?_)
    cases comma with
    | none =>
      refine .pure ?_
      exact he.both (.none .nil) fun h => .cons h
    | some comma =>
      refine (ih _).bind fun es es' ids' hes => .pure ?_
      rw [add_zero]
      exact he.both hes .cons

/-- The calls behind a callee bear their identities beside those of the callee. -/
theorem draws_calls (hinner : Draws Expr.Bears inner inner') (n : Nat) {callee : Expr Unit}
    {callee' : Expr RefId} {ids : Multiset RefId} (h : callee.Bears callee' ids) :
    Draws (fun e e' ids' => e.Bears e' (ids + ids')) (calls inner n callee)
      (Drawn.calls inner' n callee') := by
  induction n generalizing callee callee' ids with
  | zero =>
    refine .pure ?_
    rwa [add_zero]
  | succ n ih =>
    refine .lift_bind fun openParen => ?_
    cases openParen with
    | none =>
      refine .pure ?_
      rwa [add_zero]
    | some openParen =>
      have hend (es : List (Expr Unit)) (es' : List (Expr RefId)) (ids' : Multiset RefId)
          (hes : Expr.BearsAll es es' ids') :
          Draws (fun e e' ids'' => e.Bears e' (ids + (ids' + ids'')))
            (do
              let paren ← expect (·.isPunct .rightParen) .closeArguments
              calls inner n (.call callee paren es))
            (do
              let paren ← Drawing.lift (expect (·.isPunct .rightParen) .closeArguments)
              Drawn.calls inner' n (.call callee' paren es')) := by
        refine .lift_bind fun paren => ?_
        have hcall : (Expr.call callee paren es).Bears (.call callee' paren es') (ids + ids') :=
          h.both hes fun hcallee => .call hcallee rfl
        simpa only [add_assoc] using ih hcall
      refine .lift_bind fun t => .ite ?_ ?_
      · exact (Draws.pure (.none .nil)).bind hend
      · exact (draws_arguments hinner (n + 1) 0).bind hend

theorem draws_call (hinner : Draws Expr.Bears inner inner') (n : Nat) :
    Draws Expr.Bears (call inner n) (Drawn.call inner' n) :=
  (draws_primary hinner).bind fun _ _ _ => draws_calls hinner n

theorem draws_unary (hinner : Draws Expr.Bears inner inner') (n : Nat) :
    Draws Expr.Bears (unary inner n) (Drawn.unary inner' n) := by
  induction n with
  | zero => exact draws_call hinner 0
  | succ n ih =>
    refine .lift_bind fun operator => ?_
    cases operator with
    | none => exact draws_call hinner (n + 1)
    | some operator =>
      refine ih.bind fun e e' ids he => .pure ?_
      rw [add_zero]
      exact he.imp (.unary rfl)

section Chain

variable {node : Expr Unit → Token → Expr Unit → Expr Unit}
  {node' : Expr RefId → Token → Expr RefId → Expr RefId}

/-- The nodes of a level stand over both their operands. -/
def NodesBear (node : Expr Unit → Token → Expr Unit → Expr Unit)
    (node' : Expr RefId → Token → Expr RefId → Expr RefId) : Prop :=
  ∀ ⦃left left' ids⦄ (operator : Token) ⦃right right' ids'⦄, Expr.Bears left left' ids →
    Expr.Bears right right' ids' →
    (node left operator right).Bears (node' left' operator right') (ids + ids')

theorem nodesBear_binary : NodesBear .binary .binary := by
  intro _ _ _ operator _ _ _ hleft hright
  exact hleft.both hright fun h h' => .binary h rfl h'

theorem nodesBear_logical : NodesBear .logical .logical := by
  intro _ _ _ operator _ _ _ hleft hright
  exact hleft.both hright fun h h' => .logical h rfl h'

/-- The links of a chain bear their identities beside those of the left operand. -/
theorem draws_links (hnode : NodesBear node node') (isOperator : Token → Bool)
    (hoperand : Draws Expr.Bears operand operand') (n : Nat) {left : Expr Unit}
    {left' : Expr RefId} {ids : Multiset RefId} (h : left.Bears left' ids) :
    Draws (fun e e' ids' => e.Bears e' (ids + ids')) (chain node isOperator operand n left)
      (Drawn.chain node' isOperator operand' n left') := by
  induction n generalizing left left' ids with
  | zero =>
    refine .pure ?_
    rwa [add_zero]
  | succ n ih =>
    refine .lift_bind fun operator => ?_
    cases operator with
    | none =>
      refine .pure ?_
      rwa [add_zero]
    | some operator =>
      refine hoperand.bind fun right right' ids' hright => ?_
      simpa only [add_assoc] using ih (hnode operator h hright)

/-- One level of precedence. -/
theorem draws_chain (hnode : NodesBear node node') (isOperator : Token → Bool)
    (hoperand : Draws Expr.Bears operand operand') (n : Nat) :
    Draws Expr.Bears (operand >>= chain node isOperator operand n)
      (operand' >>= Drawn.chain node' isOperator operand' n) :=
  hoperand.bind fun _ _ _ => draws_links hnode isOperator hoperand n

end Chain

theorem draws_disjunction (hinner : Draws Expr.Bears inner inner') (n : Nat) :
    Draws Expr.Bears (disjunction inner n) (Drawn.disjunction inner' n) := by
  have hproduct : Draws Expr.Bears (product inner n) (Drawn.product inner' n) :=
    draws_chain nodesBear_binary _ (draws_unary hinner n) n
  have hsum : Draws Expr.Bears (sum inner n) (Drawn.sum inner' n) :=
    draws_chain nodesBear_binary _ hproduct n
  have hcomparison : Draws Expr.Bears (comparison inner n) (Drawn.comparison inner' n) :=
    draws_chain nodesBear_binary _ hsum n
  have hequality : Draws Expr.Bears (equality inner n) (Drawn.equality inner' n) :=
    draws_chain nodesBear_binary _ hcomparison n
  have hconjunction : Draws Expr.Bears (conjunction inner n) (Drawn.conjunction inner' n) :=
    draws_chain nodesBear_logical _ hequality n
  exact draws_chain nodesBear_logical _ hconjunction n

/-- The identity of the target is left out, and the assignment has one of its own. -/
theorem draws_assignment (hinner : Draws Expr.Bears inner inner') (n : Nat) :
    Draws Expr.Bears (assignment inner n) (Drawn.assignment inner' n) := by
  refine (draws_disjunction hinner n).bind fun target target' ids htarget =>
    .lift_bind fun equals => ?_
  cases equals with
  | none =>
    refine .pure ?_
    rwa [add_zero]
  | some equals =>
    refine hinner.bind fun value value' ids' hvalue => ?_
    cases htarget.alike with
    | @var _ _ name _ _ hname =>
      obtain rfl := hname
      refine .fresh_bind fun ref => .pure ?_
      have hassign : (Expr.assign () name value).Bears (.assign ref name value') (ids' + {ref}) :=
        hvalue.both (.one trivial) fun h _ => .assign trivial rfl h
      rw [add_zero]
      exact hassign.mono (Multiset.le_add_left _ _)
    | _ =>
      refine .lift_bind fun _ => .pure ?_
      exact htarget.mono (Multiset.le_add_right _ _)

/-- An expression is read with the identities that were drawn for it. -/
theorem draws_expression (n : Nat) : Draws Expr.Bears (expression n) (Drawn.expression n) := by
  induction n with
  | zero => exact .fail
  | succ n ih => exact draws_assignment ih (n + 1)

theorem draws_optionalExpression (n : Nat) (close : Punct) :
    Draws Expr.MayBear (optionalExpression n close) (Drawn.optionalExpression n close) := by
  refine .lift_bind fun t => .ite (.pure .none) ?_
  exact (draws_expression n).map fun _ _ _ he => .some he

/-- The expression is only returned where all tokens are taken. -/
theorem agrees_wholeExpression (drawn : Nat) (tokens : List Token) :
    Draws.Agrees Expr.Bears drawn (wholeExpression tokens)
      (Drawn.wholeExpression drawn tokens) := by
  refine Draws.bind (draws_expression tokens.length) (fun e e' ids he => ?_) drawn tokens
  refine .lift_bind fun t => .ite (.pure ?_) .fail
  rwa [add_zero]

end Expressions

section Statements

variable {inner nested : Rule (Stmt Unit)} {inner' nested' : Drawing (Stmt RefId)}

/-- A declared name has no identity of its own; only the initializer draws. -/
theorem draws_varDeclaration (n : Nat) :
    Draws Stmt.Bears (varDeclaration n) (Drawn.varDeclaration n) := by
  refine .lift_bind fun name => .lift_bind fun equals => ?_
  have hend (e : Option (Expr Unit)) (e' : Option (Expr RefId)) (ids : Multiset RefId)
      (he : Expr.MayBear e e' ids) : Draws (fun s s' ids' => Stmt.Bears s s' (ids + ids'))
        (do
          let _ ← expect (·.isPunct .semicolon) .endOfVariable
          pure (.var name e))
        (do
          let _ ← Drawing.lift (expect (·.isPunct .semicolon) .endOfVariable)
          pure (.var name e')) := by
    refine .lift_bind fun _ => .pure ?_
    rw [add_zero]
    cases he with
    | none => exact (Bears.none (.declared rfl)).mono (Multiset.zero_le _)
    | some he => exact he.imp (.initialized rfl)
  cases equals with
  | none => exact (Draws.pure .none).bind hend
  | some equals => exact ((draws_expression n).map fun _ _ _ he => .some he).bind hend

theorem draws_expressionStatement (n : Nat) :
    Draws Stmt.Bears (expressionStatement n) (Drawn.expressionStatement n) := by
  refine (draws_expression n).bind fun e e' ids he => .lift_bind fun _ => .pure ?_
  rw [add_zero]
  exact he.imp .expression

theorem draws_printStatement (n : Nat) :
    Draws Stmt.Bears (printStatement n) (Drawn.printStatement n) := by
  refine (draws_expression n).bind fun e e' ids he => .lift_bind fun _ => .pure ?_
  rw [add_zero]
  exact he.imp .print

theorem draws_returnStatement (n : Nat) (keyword : Token) :
    Draws Stmt.Bears (returnStatement n keyword) (Drawn.returnStatement n keyword) := by
  refine (draws_optionalExpression n _).bind fun e e' ids he => .lift_bind fun _ => .pure ?_
  rw [add_zero]
  cases he with
  | none => exact (Bears.none (.finished rfl)).mono (Multiset.zero_le _)
  | some he => exact he.imp (.returned rfl)

/-- A declaration that was given up leaves its identities to nobody. -/
theorem bearsAll_found {first : Option (Stmt Unit)} {first' : Option (Stmt RefId)}
    {others : Option (List (Stmt Unit))} {others' : Option (List (Stmt RefId))}
    {ids ids' : Multiset RefId} (hfirst : Stmt.MayBear first first' ids)
    (hothers : Option.Rel (fun ss ss' => Stmt.BearsAll ss ss' ids') others others') :
    Option.Rel (fun ss ss' => Stmt.BearsAll ss ss' (ids + ids'))
      (others.map (first.toList ++ ·)) (others'.map (first'.toList ++ ·)) := by
  cases hothers with
  | none => exact .none
  | some hothers =>
    cases hfirst with
    | none => exact .some (hothers.mono (Multiset.le_add_left _ _))
    | some hfirst => exact .some (hfirst.cons hothers)

/-- Declarations bear the identities that were drawn for those that were found. -/
theorem draws_declarations (hnested : Draws Stmt.Bears nested nested') (closed : Token → Bool)
    (n : Nat) : Draws Stmt.BearsAll (declarations nested closed n)
      (Drawn.declarations nested' closed n) := by
  induction n with
  | zero => exact .pure (.none .nil)
  | succ n ih =>
    intro drawn ts
    simp only [declarations, Drawn.declarations]
    split
    · exact Draws.pure (K := Stmt.BearsAll) .nil drawn ts
    · obtain ⟨hle, herrors, hrest, hfirst⟩ := hnested drawn ts
      rw [hrest, herrors]
      obtain ⟨hle', herrors', hrest', hothers⟩ := ih (nested' drawn ts).2 (nested ts).rest
      refine ⟨hle.trans hle', congrArg _ herrors', hrest', ?_⟩
      rw [← handedOut_add hle hle']
      exact bearsAll_found hfirst hothers

theorem draws_block (hnested : Draws Stmt.Bears nested nested') (n : Nat) :
    Draws Stmt.BearsAll (block nested n) (Drawn.block nested' n) := by
  refine (draws_declarations hnested _ n).bind fun ss ss' ids hss => .lift_bind fun _ => .pure ?_
  rwa [add_zero]

/-- A function bears the identities of its body, and none for its parameters. -/
theorem draws_function (hnested : Draws Stmt.Bears nested nested') (n : Nat) :
    Draws Stmt.Bears (function nested n) (Drawn.function nested' n) := by
  have hend (name : Token) (params : List Token) : Draws Stmt.Bears
      (do
        let _ ← expect (·.isPunct .rightParen) .closeParameters
        let _ ← expect (·.isPunct .leftBrace) .openBody
        let body ← block nested n
        pure (.function name params body))
      (do
        let _ ← Drawing.lift (expect (·.isPunct .rightParen) .closeParameters)
        let _ ← Drawing.lift (expect (·.isPunct .leftBrace) .openBody)
        let body ← Drawn.block nested' n
        pure (.function name params body)) := by
    refine .lift_bind fun _ => .lift_bind fun _ => (draws_block hnested n).bind
      fun ss ss' ids hss => .pure ?_
    rw [add_zero]
    exact hss.imp (.function rfl (List.forall₂_same.mpr fun _ _ => rfl))
  refine .lift_bind fun name => .lift_bind fun _ => .lift_bind fun t => .ite ?_ ?_
  · exact .lift_bind (r := Pure.pure []) (hend name)
  · exact .lift_bind (hend name)

theorem draws_ifStatement (hinner : Draws Stmt.Bears inner inner') (n : Nat) :
    Draws Stmt.Bears (ifStatement inner n) (Drawn.ifStatement inner' n) := by
  refine .lift_bind fun _ => (draws_expression n).bind fun e e' ids he => .lift_bind fun _ =>
    hinner.bind fun s s' ids' hs => .lift_bind fun keyword => ?_
  cases keyword with
  | none =>
    refine .pure ?_
    rw [add_zero]
    exact he.both hs .ifThen
  | some keyword =>
    refine hinner.bind fun t t' ids'' ht => .pure ?_
    rw [add_zero]
    have hbranches := hs.both ht And.intro
    exact he.both hbranches fun he hst => .ifElse he hst.1 hst.2

theorem draws_whileStatement (hinner : Draws Stmt.Bears inner inner') (n : Nat) :
    Draws Stmt.Bears (whileStatement inner n) (Drawn.whileStatement inner' n) := by
  refine .lift_bind fun _ => (draws_expression n).bind fun e e' ids he => .lift_bind fun _ =>
    hinner.bind fun s s' ids' hs => .pure ?_
  rw [add_zero]
  exact he.both hs .while

/-- The clauses of a loop have their identities wherever they are put. -/
theorem bears_forLoop {first : Option (Stmt Unit)} {first' : Option (Stmt RefId)}
    {condition increment : Option (Expr Unit)} {condition' increment' : Option (Expr RefId)}
    {body : Stmt Unit} {body' : Stmt RefId} {ids₁ ids₂ ids₃ ids₄ : Multiset RefId}
    (hfirst : Stmt.MayBear first first' ids₁) (hcondition : Expr.MayBear condition condition' ids₂)
    (hincrement : Expr.MayBear increment increment' ids₃) (hbody : body.Bears body' ids₄) :
    (forLoop first condition increment body).Bears
      (Drawn.forLoop first' condition' increment' body') (ids₁ + (ids₂ + (ids₃ + ids₄))) := by
  have hloop (s : Stmt Unit) (s' : Stmt RefId) (ids : Multiset RefId) (hs : s.Bears s' ids) :
      (forLoop first condition none s).Bears (Drawn.forLoop first' condition' none s')
        (ids₁ + (ids₂ + ids)) := by
    have hwhile : (Stmt.while (condition.getD (.literal (.bool true))) s).Bears
        (.while (condition'.getD (.literal (.bool true))) s') (ids₂ + ids) := by
      cases hcondition with
      | none => exact ((Bears.none .literal).both hs .while).mono (by simp)
      | some he => exact he.both hs .while
    cases hfirst with
    | none => exact hwhile.mono (Multiset.le_add_left _ _)
    | some hfirst =>
      have hblock := (hfirst.cons (hwhile.cons .nil)).block
      rwa [add_zero] at hblock
  cases hincrement with
  | none => exact hloop _ _ _ (hbody.mono (Multiset.le_add_left _ _))
  | some he =>
    refine hloop _ _ _ ?_
    have hexpression : (Stmt.expression _).Bears (.expression _) ids₃ := he.imp .expression
    have hblock := (hbody.cons (hexpression.cons .nil)).block
    rwa [add_zero, add_comm] at hblock

/-- A loop with clauses bears each identity once, although its tree is built from parts. -/
theorem draws_forStatement (hinner : Draws Stmt.Bears inner inner') (n : Nat) :
    Draws Stmt.Bears (forStatement inner n) (Drawn.forStatement inner' n) := by
  refine .lift_bind fun _ => .lift_bind fun next => ?_
  have hend (first : Option (Stmt Unit)) (first' : Option (Stmt RefId)) (ids : Multiset RefId)
      (hfirst : Stmt.MayBear first first' ids) :
      Draws (fun s s' ids' => Stmt.Bears s s' (ids + ids'))
        (do
          let condition ← optionalExpression n .semicolon
          let _ ← expect (·.isPunct .semicolon) .endOfLoopCondition
          let increment ← optionalExpression n .rightParen
          let _ ← expect (·.isPunct .rightParen) .closeFor
          let body ← inner
          pure (forLoop first condition increment body))
        (do
          let condition ← Drawn.optionalExpression n .semicolon
          let _ ← Drawing.lift (expect (·.isPunct .semicolon) .endOfLoopCondition)
          let increment ← Drawn.optionalExpression n .rightParen
          let _ ← Drawing.lift (expect (·.isPunct .rightParen) .closeFor)
          let body ← inner'
          pure (Drawn.forLoop first' condition increment body)) := by
    refine (draws_optionalExpression n _).bind fun _ _ _ hcondition => .lift_bind fun _ =>
      (draws_optionalExpression n _).bind fun _ _ _ hincrement => .lift_bind fun _ =>
        hinner.bind fun _ _ _ hbody => .pure ?_
    rw [add_zero]
    exact bears_forLoop hfirst hcondition hincrement hbody
  cases next with
  | none => exact ((draws_expressionStatement n).map fun _ _ _ hs => .some hs).bind hend
  | some t =>
    refine .ite ?_ ?_
    · exact ((draws_varDeclaration n).map fun _ _ _ hs => .some hs).bind hend
    · exact (Draws.pure .none).bind hend

theorem draws_anyStatement (hinner : Draws Stmt.Bears inner inner')
    (hnested : Draws Stmt.Bears nested nested') (n : Nat) :
    Draws Stmt.Bears (anyStatement inner nested n) (Drawn.anyStatement inner' nested' n) := by
  refine .lift_bind fun t => ?_
  generalize t.kind = kind
  cases kind with
  | keyword k =>
    cases k with
    | «for» => exact .lift_bind fun _ => draws_forStatement hinner n
    | «if» => exact .lift_bind fun _ => draws_ifStatement hinner n
    | «while» => exact .lift_bind fun _ => draws_whileStatement hinner n
    | «return» => exact .lift_bind fun _ => draws_returnStatement n t
    | print => exact .lift_bind fun _ => draws_printStatement n
    | _ => exact draws_expressionStatement n
  | punct p =>
    cases p with
    | leftBrace =>
      exact .lift_bind fun _ => (draws_block hnested n).map fun _ _ _ => Stmt.BearsAll.block
    | _ => exact draws_expressionStatement n
  | _ => exact draws_expressionStatement n

/-- A declaration that is given up loses its identities, and none comes back. -/
theorem draws_recovering {r : Rule (Stmt Unit)} {d : Drawing (Stmt RefId)}
    (h : Draws Stmt.Bears r d) : Draws Stmt.Bears (recovering r) (Drawn.recovering d) := by
  intro drawn ts
  obtain ⟨hle, herrors, hrest, hresult⟩ := h drawn ts
  unfold recovering Drawn.recovering
  generalize r ts = reply at *
  generalize d drawn ts = drawing at *
  obtain ⟨result, errors, rest⟩ := reply
  obtain ⟨⟨result', errors', rest'⟩, drawn'⟩ := drawing
  obtain rfl : errors' = errors := herrors
  obtain rfl : rest' = rest := hrest
  cases hresult with
  | none => exact ⟨hle, rfl, rfl, .none⟩
  | some hs => exact ⟨hle, rfl, rfl, .some hs⟩

theorem draws_anyDeclaration (hinner : Draws Stmt.Bears inner inner')
    (hnested : Draws Stmt.Bears nested nested') (n : Nat) :
    Draws Stmt.Bears (anyDeclaration inner nested n) (Drawn.anyDeclaration inner' nested' n) := by
  refine draws_recovering (.lift_bind fun t => ?_)
  generalize t.kind = kind
  cases kind with
  | keyword k =>
    cases k with
    | «fun» => exact .lift_bind fun _ => draws_function hnested n
    | var => exact .lift_bind fun _ => draws_varDeclaration n
    | _ => exact draws_anyStatement hinner hnested n
  | _ => exact draws_anyStatement hinner hnested n

/-- Statements and declarations bear the identities drawn for them, by one induction on the
    nesting. -/
theorem draws_statement_declaration (n : Nat) :
    Draws Stmt.Bears (statement n) (Drawn.statement n) ∧
      Draws Stmt.Bears (declaration n) (Drawn.declaration n) := by
  induction n with
  | zero => exact ⟨.fail, .fail⟩
  | succ n ih =>
    obtain ⟨hstatement, hdeclaration⟩ := ih
    exact ⟨draws_anyStatement hstatement hdeclaration _,
      draws_anyDeclaration hstatement hdeclaration _⟩

/-- The program that draws identities reads what the grammar reads. -/
theorem agrees_program (drawn : Nat) (tokens : List Token) :
    Draws.Agrees Stmt.BearsAll drawn
      (declarations (declaration tokens.length) (fun _ => false) tokens.length tokens)
      (Drawn.program drawn tokens) :=
  draws_declarations (draws_statement_declaration _).2 _ _ drawn tokens

/-- The trees of a program bear only identities that were handed out for this program. -/
theorem bearsAll_program (drawn : Nat) (tokens : List Token) :
    Stmt.BearsAll (program tokens).statements ((Drawn.program drawn tokens).1.result.getD [])
      (handedOut drawn (Drawn.program drawn tokens).2) := by
  have hresult := (agrees_program drawn tokens).result
  rw [program]
  generalize (declarations _ _ _ tokens).result = result at hresult ⊢
  generalize (Drawn.program drawn tokens).1.result = result' at hresult ⊢
  cases hresult with
  | none => exact Stmt.BearsAll.nil.mono (Multiset.zero_le _)
  | some h => exact h

end Statements

namespace Parse

/-- The same tree, but for identities. -/
inductive SameTree : Parsed Unit → Parsed RefId → Prop
  | program {ss : List (Stmt Unit)} {ss' : List (Stmt RefId)}
      (h : Stmt.AlikeAll (· = ·) (fun _ _ => True) ss ss') : SameTree (.program ss) (.program ss')
  | absent : SameTree (.expression none) (.expression none)
  | expression {e : Expr Unit} {e' : Expr RefId} (h : e.Alike (· = ·) (fun _ _ => True) e') :
      SameTree (.expression (some e)) (.expression (some e'))

/-- One parse draws what it returns, and takes no identity back. -/
theorem bears_draw (p : Parse) (drawn : Nat) : drawn ≤ (p.draw drawn).2 ∧
    (p.draw drawn).1.2 = p.read.2 ∧
    Bears (SameTree p.read.1 (p.draw drawn).1.1) (p.draw drawn).1.1.references
      (handedOut drawn (p.draw drawn).2) := by
  cases p with
  | program tokens =>
    have h := agrees_program drawn tokens
    exact ⟨h.le, h.errors, (bearsAll_program drawn tokens).imp .program⟩
  | expression tokens =>
    obtain ⟨hle, herrors, -, hresult⟩ := agrees_wholeExpression drawn tokens
    refine ⟨hle, herrors, ?_⟩
    simp only [read, draw]
    generalize (wholeExpression tokens).result = result at hresult ⊢
    generalize (Drawn.wholeExpression drawn tokens).1.result = result' at hresult ⊢
    cases hresult with
    | none => exact (Bears.none .absent).mono (Multiset.zero_le _)
    | some h => exact h.imp .expression

variable {parses : List Parse}

/-- Identities make no difference to what is read and reported. -/
theorem returned_sameTree (parses : List Parse) : List.Forall₂
    (fun p returned => SameTree p.read.1 returned.1 ∧ returned.2 = p.read.2) parses
    (returned parses) := by
  induction parses with
  | nil => exact .nil
  | cons p earlier ih =>
    obtain ⟨-, herrors, hbears⟩ := p.bears_draw (drawnIn earlier)
    exact .cons ⟨hbears.alike, herrors⟩ ih

/-- The identities of all nodes that were returned. -/
def identities (parses : List Parse) : List RefId :=
  (returned parses).flatMap fun returned => returned.1.references.map Prod.fst

/-- All references of a process together have no identity more often than it was handed out. -/
theorem identities_le_handedOut (parses : List Parse) :
    ↑(identities parses) ≤ handedOut 0 (drawnIn parses) := by
  induction parses with
  | nil => exact Multiset.zero_le _
  | cons p earlier ih =>
    obtain ⟨hle, -, hbears⟩ := p.bears_draw (drawnIn earlier)
    rw [identities, returned, List.flatMap_cons, ← Multiset.coe_add, drawnIn,
      ← handedOut_add (Nat.zero_le _) hle, add_comm]
    exact add_le_add ih hbears.identities

/-- As long as the counter has not begun again, no two nodes have the same identity. -/
theorem nodup_identities (h : drawnIn parses ≤ identityCount) : (identities parses).Nodup := by
  have hle := identities_le_handedOut parses
  rw [handedOut_eq_Ico h] at hle
  exact Multiset.coe_nodup.mp (Multiset.nodup_of_le hle Multiset.nodup_Ico)

end Parse

end Grammar

end Lox
