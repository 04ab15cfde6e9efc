import Lox.Grammar.Rule
import Lox.Syntax.Tree

/-!
The grammar of expressions, one rule for each level of precedence:

    expression  := assignment
    assignment  := IDENTIFIER "=" assignment | disjunction
    disjunction := conjunction ("or" conjunction)*
    conjunction := equality ("and" equality)*
    equality    := comparison (("!=" | "==") comparison)*
    comparison  := sum ((">" | ">=" | "<" | "<=") sum)*
    sum         := product (("-" | "+") product)*
    product     := unary (("/" | "*") unary)*
    unary       := ("!" | "-") unary | call
    call        := primary ("(" arguments? ")")*
    primary     := NUMBER | STRING | "true" | "false" | "nil" | IDENTIFIER | "(" expression ")"

Every rule has a bound `n`, a number of tokens that is not exceeded by those left. It serves for
termination alone: when it is used up no token is left, and the rules answer as they do then. The
rule `inner` for a whole expression inside another comes with the next lower bound.
-/

namespace Lox.Grammar

open Rule

variable (inner : Rule (Expr Unit))

def primary : Rule (Expr Unit) := do
  let t ← peek
  match t.kind with
  | .keyword .false => take *> pure (.literal (.bool false))
  | .keyword .true => take *> pure (.literal (.bool true))
  | .keyword .nil => take *> pure (.literal .nil)
  | .number value => take *> pure (.literal (.number value))
  | .string contents => take *> pure (.literal (.string contents))
  | .identifier => take *> pure (.var () t)
  | .punct .leftParen =>
    let _ ← take
    let e ← inner
    let _ ← expect (·.isPunct .rightParen) .closeGrouping
    pure (.grouping e)
  | _ => fail (.expected .expression)

/-- The arguments of a call, of which `count` are read already. One too many is reported at its
    first token and kept. -/
def arguments : Nat → Nat → Rule (List (Expr Unit))
  | 0, _ => fail (.expected .expression)
  | n + 1, count => do
    if maxArguments ≤ count then
      report (← peek) .tooManyArguments
    let e ← inner
    match ← accept? (·.isPunct .comma) with
    | some _ => return e :: (← arguments n (count + 1))
    | none => return [e]

/-- The calls that follow `callee`. -/
def calls : Nat → Expr Unit → Rule (Expr Unit)
  | 0, callee => pure callee
  | n + 1, callee => do
    match ← accept? (·.isPunct .leftParen) with
    | none => pure callee
    | some _ =>
      let args ← if (← peek).isPunct .rightParen then pure [] else arguments inner (n + 1) 0
      let paren ← expect (·.isPunct .rightParen) .closeArguments
      calls n (.call callee paren args)

def call (n : Nat) : Rule (Expr Unit) := do
  calls inner n (← primary inner)

def unary : Nat → Rule (Expr Unit)
  | 0 => call inner 0
  | n + 1 => do
    match ← accept? fun t => t.isPunct .bang || t.isPunct .minus with
    | some operator => return .unary operator (← unary n)
    | none => call inner (n + 1)

/-- The operators of one level, each with its right operand, that follow `left`. -/
def chain (node : Expr Unit → Token → Expr Unit → Expr Unit) (isOperator : Token → Bool)
    (operand : Rule (Expr Unit)) : Nat → Expr Unit → Rule (Expr Unit)
  | 0, left => pure left
  | n + 1, left => do
    match ← accept? isOperator with
    | none => pure left
    | some operator => chain node isOperator operand n (node left operator (← operand))

def product (n : Nat) : Rule (Expr Unit) := do
  chain .binary (fun t => t.isPunct .slash || t.isPunct .star) (unary inner n) n
    (← unary inner n)

def sum (n : Nat) : Rule (Expr Unit) := do
  chain .binary (fun t => t.isPunct .minus || t.isPunct .plus) (product inner n) n
    (← product inner n)

def comparison (n : Nat) : Rule (Expr Unit) := do
  chain .binary
    (fun t => t.isPunct .greater || t.isPunct .greaterEqual || t.isPunct .less ||
      t.isPunct .lessEqual)
    (sum inner n) n (← sum inner n)

def equality (n : Nat) : Rule (Expr Unit) := do
  chain .binary (fun t => t.isPunct .bangEqual || t.isPunct .equalEqual) (comparison inner n) n
    (← comparison inner n)

def conjunction (n : Nat) : Rule (Expr Unit) := do
  chain .logical (·.isKeyword .and) (equality inner n) n (← equality inner n)

def disjunction (n : Nat) : Rule (Expr Unit) := do
  chain .logical (·.isKeyword .or) (conjunction inner n) n (← conjunction inner n)

/-- An assignment to something other than a variable is reported at its `=`, after its right side,
    and read as its left side. -/
def assignment (n : Nat) : Rule (Expr Unit) := do
  let target ← disjunction inner n
  match ← accept? (·.isPunct .equal) with
  | none => pure target
  | some equals =>
    let value ← inner
    match target with
    | .var ref name => pure (.assign ref name value)
    | target =>
      report equals .invalidAssignmentTarget
      pure target

def expression : Nat → Rule (Expr Unit)
  | 0 => fail (.expected .expression)
  | n + 1 => assignment (expression n) (n + 1)

/-- Reads an expression that has to take all tokens. -/
def wholeExpression (tokens : List Token) : Reply (Expr Unit) :=
  (do
    let e ← expression tokens.length
    if (← peek).isEnd then pure e else fail (.expected .endOfExpression) : Rule _) tokens

end Lox.Grammar
