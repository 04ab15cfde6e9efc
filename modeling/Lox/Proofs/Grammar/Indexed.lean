import Lox.Grammar.Statement

/-!
The grammar over a vector of tokens. A parser keeps the index of the token in front and moves it by
one at a time; it looks only at that token and at the one behind it. Nothing bounds it but the
vector: an index that is out of range breaks it, and its loops and its recursion run on fuel, so
that to end is one thing and to run dry another. A parser leaves a record of where it looked, and of
every turn of a loop over declarations.
-/

namespace Lox

inductive Breakdown
  | outOfRange
  | outOfFuel
deriving DecidableEq

/-- What a parser does, with the index that it has then. A turn of a loop over declarations is
    recorded when it is over, with the index it began at, the number of its errors, and whether its
    declaration was kept. -/
inductive Event
  | peek (current : Nat)
  | previous (current : Nat)
  | turn (start current reported : Nat) (kept : Bool)

/-- What a call of a parser comes to. Without a result it was given up, and its caller is to be, up
    to the next declaration. -/
structure Course (α : Type) where
  result : Option α
  errors : List SyntaxError
  current : Nat
  events : List Event

/-- A parser takes the tokens and the index of the one in front. -/
def Parser (α : Type) := List Token → Nat → Except Breakdown (Course α)

namespace Parser

variable {α β : Type}

protected def pure (a : α) : Parser α :=
  fun _ i => .ok ⟨some a, [], i, []⟩

protected def bind (p : Parser α) (next : α → Parser β) : Parser β :=
  fun tokens i =>
    match p tokens i with
    | .error breakdown => .error breakdown
    | .ok ⟨none, errors, j, events⟩ => .ok ⟨none, errors, j, events⟩
    | .ok ⟨some a, errors, j, events⟩ =>
      match next a tokens j with
      | .error breakdown => .error breakdown
      | .ok course =>
        .ok ⟨course.result, errors ++ course.errors, course.current, events ++ course.events⟩

instance : Monad Parser where
  pure := Parser.pure
  bind := Parser.bind

/-- No fuel is left. -/
def dry : Parser α :=
  fun _ _ => .error .outOfFuel

def peek : Parser Token :=
  fun tokens i =>
    match tokens[i]? with
    | some t => .ok ⟨some t, [], i, [.peek i]⟩
    | none => .error .outOfRange

/-- The index of the token behind is one lower, if there is such an index. -/
def previous : Parser Token :=
  fun tokens i =>
    match i with
    | 0 => .error .outOfRange
    | j + 1 =>
      match tokens[j]? with
      | some t => .ok ⟨some t, [], j + 1, [.previous (j + 1)]⟩
      | none => .error .outOfRange

def move : Parser Unit :=
  fun _ i => .ok ⟨some (), [], i + 1, []⟩

def report (token : Token) (problem : SyntaxProblem) : Parser Unit :=
  fun _ i => .ok ⟨some (), [⟨token, problem⟩], i, []⟩

def giveUp : Parser α :=
  fun _ i => .ok ⟨none, [], i, []⟩

def isAtEnd : Parser Bool := do
  return (← peek).isEnd

/-- The end is never left behind. -/
def advance : Parser Token := do
  if ← isAtEnd then previous
  else
    move
    previous

/-- The end passes no test. -/
def check (test : Token → Bool) : Parser Bool := do
  if ← isAtEnd then return false else return test (← peek)

def accept (test : Token → Bool) : Parser Bool := do
  if ← check test then
    let _ ← advance
    return true
  else return false

def acceptAny : List (Token → Bool) → Parser Bool
  | [] => pure false
  | test :: tests => do
    if ← check test then
      let _ ← advance
      return true
    else acceptAny tests

/-- Reports at the token in front and gives up. -/
def fail (problem : SyntaxProblem) : Parser α := do
  let t ← peek
  report t problem
  giveUp

def consume (test : Token → Bool) (slot : Slot) : Parser Token := do
  if ← check test then advance else fail (.expected slot)

/-- On to the next statement boundary. -/
def resume : Nat → Parser Unit
  | 0 => dry
  | n + 1 => do
    if ← isAtEnd then return ()
    else if (← previous).isPunct .semicolon then return ()
    else if (← peek).startsStatement then return ()
    else
      let _ ← advance
      resume n

/-- On to a boundary from the token in front, whose line goes to the trace. -/
def synchronize (n : Nat) : Parser Unit := do
  let _ ← peek
  let _ ← advance
  resume n

/-- Goes on behind a declaration that was given up. -/
def recover (p : Parser α) (n : Nat) : Parser (Option α) :=
  fun tokens i =>
    match p tokens i with
    | .error breakdown => .error breakdown
    | .ok ⟨some a, errors, j, events⟩ => .ok ⟨some (some a), errors, j, events⟩
    | .ok ⟨none, errors, j, events⟩ =>
      match synchronize n tokens j with
      | .error breakdown => .error breakdown
      | .ok course =>
        .ok ⟨some none, errors ++ course.errors, course.current, events ++ course.events⟩

/-- Records a turn of a loop. -/
def recorded (p : Parser (Option α)) : Parser (Option α) :=
  fun tokens i =>
    match p tokens i with
    | .error breakdown => .error breakdown
    | .ok course =>
      let kept := course.result.any Option.isSome
      let turn := Event.turn i course.current course.errors.length kept
      .ok { course with events := course.events ++ [turn] }

end Parser

namespace Grammar

namespace Indexed

open Lox.Parser

section Expressions

variable (inner : Parser (Expr Unit))

def primary : Parser (Expr Unit) := do
  if ← accept (·.isKeyword .false) then return .literal (.bool false)
  else if ← accept (·.isKeyword .true) then return .literal (.bool true)
  else if ← accept (·.isKeyword .nil) then return .literal .nil
  else
    match (← peek).kind with
    | .number value =>
      let _ ← advance
      return .literal (.number value)
    | .string contents =>
      let _ ← advance
      return .literal (.string contents)
    | _ =>
      if ← accept Token.isIdentifier then return .var () (← previous)
      else if ← accept (·.isPunct .leftParen) then
        let e ← inner
        let _ ← consume (·.isPunct .rightParen) .closeGrouping
        return .grouping e
      else fail (.expected .expression)

def arguments : Nat → Nat → Parser (List (Expr Unit))
  | 0, _ => dry
  | n + 1, count => do
    if maxArguments ≤ count then
      report (← peek) .tooManyArguments
    let e ← inner
    if ← accept (·.isPunct .comma) then return e :: (← arguments n (count + 1))
    else return [e]

def finishCall (n : Nat) (callee : Expr Unit) : Parser (Expr Unit) := do
  let args ← if ← check (·.isPunct .rightParen) then pure [] else arguments inner n 0
  let paren ← consume (·.isPunct .rightParen) .closeArguments
  return .call callee paren args

def calls : Nat → Expr Unit → Parser (Expr Unit)
  | 0, _ => dry
  | n + 1, callee => do
    if ← accept (·.isPunct .leftParen) then calls n (← finishCall inner (n + 1) callee)
    else return callee

def call (n : Nat) : Parser (Expr Unit) := do
  calls inner n (← primary inner)

def unary : Nat → Parser (Expr Unit)
  | 0 => dry
  | n + 1 => do
    if ← acceptAny [(·.isPunct .bang), (·.isPunct .minus)] then
      let operator ← previous
      return .unary operator (← unary n)
    else call inner (n + 1)

def chain (node : Expr Unit → Token → Expr Unit → Expr Unit) (operators : List (Token → Bool))
    (operand : Parser (Expr Unit)) : Nat → Expr Unit → Parser (Expr Unit)
  | 0, _ => dry
  | n + 1, left => do
    if ← acceptAny operators then
      let operator ← previous
      chain node operators operand n (node left operator (← operand))
    else return left

/-- A level of precedence. -/
def level (node : Expr Unit → Token → Expr Unit → Expr Unit) (operators : List (Token → Bool))
    (operand : Parser (Expr Unit)) (n : Nat) : Parser (Expr Unit) := do
  chain node operators operand n (← operand)

def product (n : Nat) : Parser (Expr Unit) :=
  level .binary [(·.isPunct .slash), (·.isPunct .star)] (unary inner n) n

def sum (n : Nat) : Parser (Expr Unit) :=
  level .binary [(·.isPunct .minus), (·.isPunct .plus)] (product inner n) n

def comparison (n : Nat) : Parser (Expr Unit) :=
  level .binary
    [(·.isPunct .greater), (·.isPunct .greaterEqual), (·.isPunct .less), (·.isPunct .lessEqual)]
    (sum inner n) n

def equality (n : Nat) : Parser (Expr Unit) :=
  level .binary [(·.isPunct .bangEqual), (·.isPunct .equalEqual)] (comparison inner n) n

def conjunction (n : Nat) : Parser (Expr Unit) :=
  level .logical [(·.isKeyword .and)] (equality inner n) n

def disjunction (n : Nat) : Parser (Expr Unit) :=
  level .logical [(·.isKeyword .or)] (conjunction inner n) n

def assignment (n : Nat) : Parser (Expr Unit) := do
  let target ← disjunction inner n
  if ← accept (·.isPunct .equal) then
    let equals ← previous
    let value ← inner
    match target with
    | .var ref name => return .assign ref name value
    | target =>
      report equals .invalidAssignmentTarget
      return target
  else return target

end Expressions

def expression : Nat → Parser (Expr Unit)
  | 0 => dry
  | n + 1 => assignment (expression n) (n + 1)

def optionalExpression (n : Nat) (close : Punct) : Parser (Option (Expr Unit)) := do
  if ← check (·.isPunct close) then return none else some <$> expression n

def varDeclaration (n : Nat) : Parser (Stmt Unit) := do
  let name ← consume Token.isIdentifier .variableName
  let initializer ← if ← accept (·.isPunct .equal) then some <$> expression n else pure none
  let _ ← consume (·.isPunct .semicolon) .endOfVariable
  return .var name initializer

def expressionStatement (n : Nat) : Parser (Stmt Unit) := do
  let e ← expression n
  let _ ← consume (·.isPunct .semicolon) .endOfStatement
  return .expression e

def printStatement (n : Nat) : Parser (Stmt Unit) := do
  let e ← expression n
  let _ ← consume (·.isPunct .semicolon) .endOfPrint
  return .print e

def returnStatement (n : Nat) : Parser (Stmt Unit) := do
  let keyword ← previous
  let value ← optionalExpression n .semicolon
  let _ ← consume (·.isPunct .semicolon) .endOfReturn
  return .return keyword value

/-- Declarations up to where `stop` holds. -/
def declarations (nested : Parser (Option (Stmt Unit))) (stop : Parser Bool) :
    Nat → Parser (List (Stmt Unit))
  | 0 => dry
  | n + 1 => do
    if ← stop then return []
    else
      let first ← recorded nested
      let others ← declarations nested stop n
      return first.toList ++ others

def block (nested : Parser (Option (Stmt Unit))) (n : Nat) : Parser (List (Stmt Unit)) := do
  let body ← declarations nested
    (do if ← check (·.isPunct .rightBrace) then return true else isAtEnd) n
  let _ ← consume (·.isPunct .rightBrace) .closeBlock
  return body

def parameters : Nat → Nat → Parser (List Token)
  | 0, _ => dry
  | n + 1, count => do
    if maxArguments ≤ count then
      report (← peek) .tooManyParameters
    let parameter ← consume Token.isIdentifier .parameterName
    if ← accept (·.isPunct .comma) then return parameter :: (← parameters n (count + 1))
    else return [parameter]

def function (nested : Parser (Option (Stmt Unit))) (n : Nat) : Parser (Stmt Unit) := do
  let name ← consume Token.isIdentifier .functionName
  let _ ← consume (·.isPunct .leftParen) .openParameters
  let params ← if ← check (·.isPunct .rightParen) then pure [] else parameters n 0
  let _ ← consume (·.isPunct .rightParen) .closeParameters
  let _ ← consume (·.isPunct .leftBrace) .openBody
  let body ← block nested n
  return .function name params body

def ifStatement (inner : Parser (Stmt Unit)) (n : Nat) : Parser (Stmt Unit) := do
  let _ ← consume (·.isPunct .leftParen) .openIf
  let condition ← expression n
  let _ ← consume (·.isPunct .rightParen) .closeIf
  let thenBranch ← inner
  if ← accept (·.isKeyword .else) then return .if condition thenBranch (some (← inner))
  else return .if condition thenBranch none

def whileStatement (inner : Parser (Stmt Unit)) (n : Nat) : Parser (Stmt Unit) := do
  let _ ← consume (·.isPunct .leftParen) .openWhile
  let condition ← expression n
  let _ ← consume (·.isPunct .rightParen) .closeWhile
  let body ← inner
  return .while condition body

def forInitializer (n : Nat) : Parser (Option (Stmt Unit)) := do
  if ← accept (·.isPunct .semicolon) then return none
  else if ← accept (·.isKeyword .var) then some <$> varDeclaration n
  else some <$> expressionStatement n

def forStatement (inner : Parser (Stmt Unit)) (n : Nat) : Parser (Stmt Unit) := do
  let _ ← consume (·.isPunct .leftParen) .openFor
  let initializer ← forInitializer n
  let condition ← optionalExpression n .semicolon
  let _ ← consume (·.isPunct .semicolon) .endOfLoopCondition
  let increment ← optionalExpression n .rightParen
  let _ ← consume (·.isPunct .rightParen) .closeFor
  let body ← inner
  return forLoop initializer condition increment body

def anyStatement (inner : Parser (Stmt Unit)) (nested : Parser (Option (Stmt Unit))) (n : Nat) :
    Parser (Stmt Unit) := do
  if ← accept (·.isKeyword .for) then forStatement inner n
  else if ← accept (·.isKeyword .if) then ifStatement inner n
  else if ← accept (·.isKeyword .while) then whileStatement inner n
  else if ← accept (·.isKeyword .return) then returnStatement n
  else if ← accept (·.isPunct .leftBrace) then .block <$> block nested n
  else if ← accept (·.isKeyword .print) then printStatement n
  else expressionStatement n

/-- The line of the first token goes to the trace. -/
def anyDeclaration (inner : Parser (Stmt Unit)) (nested : Parser (Option (Stmt Unit))) (n : Nat) :
    Parser (Option (Stmt Unit)) :=
  recover (do
    let _ ← peek
    if ← accept (·.isKeyword .fun) then function nested n
    else if ← accept (·.isKeyword .var) then varDeclaration n
    else anyStatement inner nested n) n

mutual

def statement : Nat → Parser (Stmt Unit)
  | 0 => dry
  | n + 1 => anyStatement (statement n) (declaration n) (n + 1)

def declaration : Nat → Parser (Option (Stmt Unit))
  | 0 => dry
  | n + 1 => anyDeclaration (statement n) (declaration n) (n + 1)

end

/-- Reads a whole program, from the first token on. -/
def parse (fuel : Nat) (tokens : List Token) : Except Breakdown (Course (List (Stmt Unit))) :=
  declarations (declaration fuel) isAtEnd fuel tokens 0

/-- Reads an expression that has to take all tokens. -/
def parseExpression (fuel : Nat) (tokens : List Token) : Except Breakdown (Course (Expr Unit)) :=
  (do
    let e ← expression fuel
    if ← isAtEnd then return e else fail (.expected .endOfExpression) : Parser _) tokens 0

end Indexed

end Grammar

end Lox
