import Lox.Grammar.Statement
import Lox.Syntax.Reference

/-!
The grammar with identities. A process hands out the identities of references from one counter, a
machine word, for all that it reads. A rule draws one where it meets a variable, and another where
it has read an assignment; the identity of what turned out to be a target is dropped. Those that
were drawn before a rule was given up are gone with what it has read. Rules without references are
those of the grammar without identities.
-/

namespace Lox

/-- How many identities the counter can tell apart. Behind the last it begins again. -/
def identityCount : Nat := Nat.pow 2 64

/-- A rule that takes how many identities were handed out before it, and replies with how many are
    behind it. -/
def Drawing (α : Type) := Nat → List Token → Reply α × Nat

namespace Drawing

variable {α β : Type}

protected def pure (a : α) : Drawing α :=
  fun drawn ts => (⟨some a, [], ts⟩, drawn)

protected def bind (d : Drawing α) (next : α → Drawing β) : Drawing β :=
  fun drawn ts =>
    match d drawn ts with
    | (⟨none, errors, rest⟩, drawn) => (⟨none, errors, rest⟩, drawn)
    | (⟨some a, errors, rest⟩, drawn) =>
      let (reply, drawn) := next a drawn rest
      (⟨reply.result, errors ++ reply.errors, reply.rest⟩, drawn)

instance : Monad Drawing where
  pure := Drawing.pure
  bind := Drawing.bind

/-- A rule that draws nothing. -/
def lift (r : Rule α) : Drawing α :=
  fun drawn ts => (r ts, drawn)

/-- Draws an identity. -/
def fresh : Drawing RefId :=
  fun drawn ts => (⟨some (drawn % identityCount), [], ts⟩, drawn + 1)

end Drawing

namespace Grammar

namespace Drawn

open Rule Drawing

section Expressions

variable (inner : Drawing (Expr RefId))

def primary : Drawing (Expr RefId) := do
  let t ← lift peek
  match t.kind with
  | .keyword .false => lift take *> pure (.literal (.bool false))
  | .keyword .true => lift take *> pure (.literal (.bool true))
  | .keyword .nil => lift take *> pure (.literal .nil)
  | .number value => lift take *> pure (.literal (.number value))
  | .string contents => lift take *> pure (.literal (.string contents))
  | .identifier =>
    let _ ← lift take
    let ref ← fresh
    pure (.var ref t)
  | .punct .leftParen =>
    let _ ← lift take
    let e ← inner
    let _ ← lift (expect (·.isPunct .rightParen) .closeGrouping)
    pure (.grouping e)
  | _ => lift (fail (.expected .expression))

def arguments : Nat → Nat → Drawing (List (Expr RefId))
  | 0, _ => lift (fail (.expected .expression))
  | n + 1, count => do
    if maxArguments ≤ count then
      lift (report (← lift peek) .tooManyArguments)
    let e ← inner
    match ← lift (accept? (·.isPunct .comma)) with
    | some _ => return e :: (← arguments n (count + 1))
    | none => return [e]

def calls : Nat → Expr RefId → Drawing (Expr RefId)
  | 0, callee => pure callee
  | n + 1, callee => do
    match ← lift (accept? (·.isPunct .leftParen)) with
    | none => pure callee
    | some _ =>
      let args ←
        if (← lift peek).isPunct .rightParen then pure [] else arguments inner (n + 1) 0
      let paren ← lift (expect (·.isPunct .rightParen) .closeArguments)
      calls n (.call callee paren args)

def call (n : Nat) : Drawing (Expr RefId) := do
  calls inner n (← primary inner)

def unary : Nat → Drawing (Expr RefId)
  | 0 => call inner 0
  | n + 1 => do
    match ← lift (accept? fun t => t.isPunct .bang || t.isPunct .minus) with
    | some operator => return .unary operator (← unary n)
    | none => call inner (n + 1)

def chain (node : Expr RefId → Token → Expr RefId → Expr RefId) (isOperator : Token → Bool)
    (operand : Drawing (Expr RefId)) : Nat → Expr RefId → Drawing (Expr RefId)
  | 0, left => pure left
  | n + 1, left => do
    match ← lift (accept? isOperator) with
    | none => pure left
    | some operator => chain node isOperator operand n (node left operator (← operand))

def product (n : Nat) : Drawing (Expr RefId) := do
  chain .binary (fun t => t.isPunct .slash || t.isPunct .star) (unary inner n) n
    (← unary inner n)

def sum (n : Nat) : Drawing (Expr RefId) := do
  chain .binary (fun t => t.isPunct .minus || t.isPunct .plus) (product inner n) n
    (← product inner n)

def comparison (n : Nat) : Drawing (Expr RefId) := do
  chain .binary
    (fun t => t.isPunct .greater || t.isPunct .greaterEqual || t.isPunct .less ||
      t.isPunct .lessEqual)
    (sum inner n) n (← sum inner n)

def equality (n : Nat) : Drawing (Expr RefId) := do
  chain .binary (fun t => t.isPunct .bangEqual || t.isPunct .equalEqual) (comparison inner n) n
    (← comparison inner n)

def conjunction (n : Nat) : Drawing (Expr RefId) := do
  chain .logical (·.isKeyword .and) (equality inner n) n (← equality inner n)

def disjunction (n : Nat) : Drawing (Expr RefId) := do
  chain .logical (·.isKeyword .or) (conjunction inner n) n (← conjunction inner n)

/-- The assignment does not take over the identity that its target had as a variable. -/
def assignment (n : Nat) : Drawing (Expr RefId) := do
  let target ← disjunction inner n
  match ← lift (accept? (·.isPunct .equal)) with
  | none => pure target
  | some equals =>
    let value ← inner
    match target with
    | .var _ name =>
      let ref ← fresh
      pure (.assign ref name value)
    | target =>
      lift (report equals .invalidAssignmentTarget)
      pure target

end Expressions

def expression : Nat → Drawing (Expr RefId)
  | 0 => lift (fail (.expected .expression))
  | n + 1 => assignment (expression n) (n + 1)

def wholeExpression (drawn : Nat) (tokens : List Token) : Reply (Expr RefId) × Nat :=
  (do
    let e ← expression tokens.length
    if (← lift peek).isEnd then pure e else lift (fail (.expected .endOfExpression)) : Drawing _)
    drawn tokens

def optionalExpression (n : Nat) (close : Punct) : Drawing (Option (Expr RefId)) := do
  if (← lift peek).isPunct close then pure none else some <$> expression n

def varDeclaration (n : Nat) : Drawing (Stmt RefId) := do
  let name ← lift (expect Token.isIdentifier .variableName)
  let initializer ← match ← lift (accept? (·.isPunct .equal)) with
    | some _ => some <$> expression n
    | none => pure none
  let _ ← lift (expect (·.isPunct .semicolon) .endOfVariable)
  pure (.var name initializer)

def expressionStatement (n : Nat) : Drawing (Stmt RefId) := do
  let e ← expression n
  let _ ← lift (expect (·.isPunct .semicolon) .endOfStatement)
  pure (.expression e)

def printStatement (n : Nat) : Drawing (Stmt RefId) := do
  let e ← expression n
  let _ ← lift (expect (·.isPunct .semicolon) .endOfPrint)
  pure (.print e)

def returnStatement (n : Nat) (keyword : Token) : Drawing (Stmt RefId) := do
  let value ← optionalExpression n .semicolon
  let _ ← lift (expect (·.isPunct .semicolon) .endOfReturn)
  pure (.return keyword value)

/-- The declarations of one list draw one behind the other, those given up as well. -/
def declarations (nested : Drawing (Stmt RefId)) (closed : Token → Bool) :
    Nat → Drawing (List (Stmt RefId))
  | 0 => pure []
  | n + 1 => fun drawn ts =>
    if (front ts).isEnd || closed (front ts) then (⟨some [], [], ts⟩, drawn)
    else
      let (first, drawn) := nested drawn ts
      let (others, drawn) := declarations nested closed n drawn first.rest
      (⟨others.result.map (first.result.toList ++ ·), first.errors ++ others.errors, others.rest⟩,
        drawn)

def block (nested : Drawing (Stmt RefId)) (n : Nat) : Drawing (List (Stmt RefId)) := do
  let body ← declarations nested (·.isPunct .rightBrace) n
  let _ ← lift (expect (·.isPunct .rightBrace) .closeBlock)
  pure body

def function (nested : Drawing (Stmt RefId)) (n : Nat) : Drawing (Stmt RefId) := do
  let name ← lift (expect Token.isIdentifier .functionName)
  let _ ← lift (expect (·.isPunct .leftParen) .openParameters)
  let params ← if (← lift peek).isPunct .rightParen then pure [] else lift (parameters n 0)
  let _ ← lift (expect (·.isPunct .rightParen) .closeParameters)
  let _ ← lift (expect (·.isPunct .leftBrace) .openBody)
  let body ← block nested n
  pure (.function name params body)

def ifStatement (inner : Drawing (Stmt RefId)) (n : Nat) : Drawing (Stmt RefId) := do
  let _ ← lift (expect (·.isPunct .leftParen) .openIf)
  let condition ← expression n
  let _ ← lift (expect (·.isPunct .rightParen) .closeIf)
  let thenBranch ← inner
  match ← lift (accept? (·.isKeyword .else)) with
  | some _ => return .if condition thenBranch (some (← inner))
  | none => return .if condition thenBranch none

def whileStatement (inner : Drawing (Stmt RefId)) (n : Nat) : Drawing (Stmt RefId) := do
  let _ ← lift (expect (·.isPunct .leftParen) .openWhile)
  let condition ← expression n
  let _ ← lift (expect (·.isPunct .rightParen) .closeWhile)
  let body ← inner
  pure (.while condition body)

/-- The loop that a `for` abbreviates. The clauses keep their identities. -/
def forLoop (initializer : Option (Stmt RefId)) (condition : Option (Expr RefId))
    (increment : Option (Expr RefId)) (body : Stmt RefId) : Stmt RefId :=
  let body := match increment with
    | some e => .block [body, .expression e]
    | none => body
  let loop := .while (condition.getD (.literal (.bool true))) body
  match initializer with
  | some first => .block [first, loop]
  | none => loop

def forStatement (inner : Drawing (Stmt RefId)) (n : Nat) : Drawing (Stmt RefId) := do
  let _ ← lift (expect (·.isPunct .leftParen) .openFor)
  let initializer ← match ← lift (accept? fun t => t.isPunct .semicolon || t.isKeyword .var) with
    | some t => if t.isKeyword .var then some <$> varDeclaration n else pure none
    | none => some <$> expressionStatement n
  let condition ← optionalExpression n .semicolon
  let _ ← lift (expect (·.isPunct .semicolon) .endOfLoopCondition)
  let increment ← optionalExpression n .rightParen
  let _ ← lift (expect (·.isPunct .rightParen) .closeFor)
  let body ← inner
  pure (forLoop initializer condition increment body)

def anyStatement (inner nested : Drawing (Stmt RefId)) (n : Nat) : Drawing (Stmt RefId) := do
  let t ← lift peek
  match t.kind with
  | .keyword .for => lift take *> forStatement inner n
  | .keyword .if => lift take *> ifStatement inner n
  | .keyword .while => lift take *> whileStatement inner n
  | .keyword .return => lift take *> returnStatement n t
  | .punct .leftBrace => lift take *> (.block <$> block nested n)
  | .keyword .print => lift take *> printStatement n
  | _ => expressionStatement n

def recovering (d : Drawing (Stmt RefId)) : Drawing (Stmt RefId) :=
  fun drawn ts =>
    match d drawn ts with
    | (⟨some s, errors, rest⟩, drawn) => (⟨some s, errors, rest⟩, drawn)
    | (⟨none, errors, rest⟩, drawn) => (⟨none, errors, skipToBoundary rest⟩, drawn)

def anyDeclaration (inner nested : Drawing (Stmt RefId)) (n : Nat) : Drawing (Stmt RefId) :=
  recovering do
    match (← lift peek).kind with
    | .keyword .fun => lift take *> function nested n
    | .keyword .var => lift take *> varDeclaration n
    | _ => anyStatement inner nested n

mutual

def statement : Nat → Drawing (Stmt RefId)
  | 0 => lift (fail (.expected .expression))
  | n + 1 => anyStatement (statement n) (declaration n) (n + 1)

def declaration : Nat → Drawing (Stmt RefId)
  | 0 => lift (fail (.expected .expression))
  | n + 1 => anyDeclaration (statement n) (declaration n) (n + 1)

end

def program (drawn : Nat) (tokens : List Token) : Reply (List (Stmt RefId)) × Nat :=
  let n := tokens.length
  declarations (declaration n) (fun _ => false) n drawn tokens

end Drawn

/-- A use of the grammar. -/
inductive Parse
  | program (tokens : List Token)
  | expression (tokens : List Token)

/-- What a parse returns: the declarations that could be read, or the expression if there is one. -/
inductive Parsed (ρ : Type)
  | program (statements : List (Stmt ρ))
  | expression (tree : Option (Expr ρ))

/-- The references of all nodes that are returned. -/
def Parsed.references {ρ : Type} : Parsed ρ → List (ρ × Token)
  | .program statements => Stmt.referencesAll statements
  | .expression none => []
  | .expression (some e) => e.references

namespace Parse

/-- What is returned without identities, and the errors. -/
def read : Parse → Parsed Unit × List SyntaxError
  | .program tokens =>
    let program := Grammar.program tokens
    (.program program.statements, program.errors)
  | .expression tokens =>
    let reply := wholeExpression tokens
    (.expression reply.result, reply.errors)

/-- The same with identities, of which some are handed out already. -/
def draw (drawn : Nat) : Parse → (Parsed RefId × List SyntaxError) × Nat
  | .program tokens =>
    let (reply, drawn) := Drawn.program drawn tokens
    ((.program (reply.result.getD []), reply.errors), drawn)
  | .expression tokens =>
    let (reply, drawn) := Drawn.wholeExpression drawn tokens
    ((.expression reply.result, reply.errors), drawn)

/-- How many identities a process has handed out after these parses, the latest first. -/
def drawnIn : List Parse → Nat
  | [] => 0
  | p :: earlier => (p.draw (drawnIn earlier)).2

/-- What the parses of a process return, the latest first. -/
def returned : List Parse → List (Parsed RefId × List SyntaxError)
  | [] => []
  | p :: earlier => (p.draw (drawnIn earlier)).1 :: returned earlier

end Parse

end Grammar

end Lox
