import Lox.Grammar.Expression

/-!
The grammar of declarations and statements, and recovery from errors:

    program     := declaration* EOF
    declaration := "fun" IDENTIFIER "(" parameters? ")" block | variable | statement
    parameters  := IDENTIFIER ("," IDENTIFIER)*
    variable    := "var" IDENTIFIER ("=" expression)? ";"
    statement   := "for" "(" (variable | expression? ";") expression? ";" expression? ")" statement
                 | "if" "(" expression ")" statement ("else" statement)?
                 | "while" "(" expression ")" statement
                 | "return" expression? ";" | "print" expression ";" | expression ";" | block
    block       := "{" declaration* "}"

A declaration that is given up leaves no tree. Reading resumes behind the next semicolon or at the
next keyword that starts a statement. Bounds are as for expressions; the rules `inner` and `nested`
for a statement and a declaration inside another come with the next lower bound.
-/

namespace Lox.Grammar

open Rule

/-- Reads an optional expression, which is absent where `close` follows. -/
def optionalExpression (n : Nat) (close : Punct) : Rule (Option (Expr Unit)) := do
  if (← peek).isPunct close then pure none else some <$> expression n

/-- The rest of a variable declaration, behind its keyword. -/
def varDeclaration (n : Nat) : Rule (Stmt Unit) := do
  let name ← expect Token.isIdentifier .variableName
  let initializer ← match ← accept? (·.isPunct .equal) with
    | some _ => some <$> expression n
    | none => pure none
  let _ ← expect (·.isPunct .semicolon) .endOfVariable
  pure (.var name initializer)

def expressionStatement (n : Nat) : Rule (Stmt Unit) := do
  let e ← expression n
  let _ ← expect (·.isPunct .semicolon) .endOfStatement
  pure (.expression e)

def printStatement (n : Nat) : Rule (Stmt Unit) := do
  let e ← expression n
  let _ ← expect (·.isPunct .semicolon) .endOfPrint
  pure (.print e)

def returnStatement (n : Nat) (keyword : Token) : Rule (Stmt Unit) := do
  let value ← optionalExpression n .semicolon
  let _ ← expect (·.isPunct .semicolon) .endOfReturn
  pure (.return keyword value)

/-- Declarations up to a token at which `closed` holds, or to the end. Those given up are left
    out, and reading always goes on behind them. -/
def declarations (nested : Rule (Stmt Unit)) (closed : Token → Bool) : Nat → Rule (List (Stmt Unit))
  | 0 => pure []
  | n + 1 => fun ts =>
    if (front ts).isEnd || closed (front ts) then ⟨some [], [], ts⟩
    else
      let first := nested ts
      let others := declarations nested closed n first.rest
      ⟨others.result.map (first.result.toList ++ ·), first.errors ++ others.errors, others.rest⟩

/-- The rest of a block, behind its opening brace. -/
def block (nested : Rule (Stmt Unit)) (n : Nat) : Rule (List (Stmt Unit)) := do
  let body ← declarations nested (·.isPunct .rightBrace) n
  let _ ← expect (·.isPunct .rightBrace) .closeBlock
  pure body

/-- The parameters of a function, of which `count` are read already. -/
def parameters : Nat → Nat → Rule (List Token)
  | 0, _ => fail (.expected .parameterName)
  | n + 1, count => do
    if maxArguments ≤ count then
      report (← peek) .tooManyParameters
    let parameter ← expect Token.isIdentifier .parameterName
    match ← accept? (·.isPunct .comma) with
    | some _ => return parameter :: (← parameters n (count + 1))
    | none => return [parameter]

/-- The rest of a function declaration, behind its keyword. -/
def function (nested : Rule (Stmt Unit)) (n : Nat) : Rule (Stmt Unit) := do
  let name ← expect Token.isIdentifier .functionName
  let _ ← expect (·.isPunct .leftParen) .openParameters
  let params ← if (← peek).isPunct .rightParen then pure [] else parameters n 0
  let _ ← expect (·.isPunct .rightParen) .closeParameters
  let _ ← expect (·.isPunct .leftBrace) .openBody
  let body ← block nested n
  pure (.function name params body)

def ifStatement (inner : Rule (Stmt Unit)) (n : Nat) : Rule (Stmt Unit) := do
  let _ ← expect (·.isPunct .leftParen) .openIf
  let condition ← expression n
  let _ ← expect (·.isPunct .rightParen) .closeIf
  let thenBranch ← inner
  match ← accept? (·.isKeyword .else) with
  | some _ => return .if condition thenBranch (some (← inner))
  | none => return .if condition thenBranch none

def whileStatement (inner : Rule (Stmt Unit)) (n : Nat) : Rule (Stmt Unit) := do
  let _ ← expect (·.isPunct .leftParen) .openWhile
  let condition ← expression n
  let _ ← expect (·.isPunct .rightParen) .closeWhile
  let body ← inner
  pure (.while condition body)

/-- The loop that a `for` abbreviates: the increment runs behind the body, in a block with it, and
    the initializer stands in a scope around the whole loop. -/
def forLoop (initializer : Option (Stmt Unit)) (condition : Option (Expr Unit))
    (increment : Option (Expr Unit)) (body : Stmt Unit) : Stmt Unit :=
  let body := match increment with
    | some e => .block [body, .expression e]
    | none => body
  let loop := .while (condition.getD (.literal (.bool true))) body
  match initializer with
  | some first => .block [first, loop]
  | none => loop

def forStatement (inner : Rule (Stmt Unit)) (n : Nat) : Rule (Stmt Unit) := do
  let _ ← expect (·.isPunct .leftParen) .openFor
  let initializer ← match ← accept? fun t => t.isPunct .semicolon || t.isKeyword .var with
    | some t => if t.isKeyword .var then some <$> varDeclaration n else pure none
    | none => some <$> expressionStatement n
  let condition ← optionalExpression n .semicolon
  let _ ← expect (·.isPunct .semicolon) .endOfLoopCondition
  let increment ← optionalExpression n .rightParen
  let _ ← expect (·.isPunct .rightParen) .closeFor
  let body ← inner
  pure (forLoop initializer condition increment body)

def anyStatement (inner nested : Rule (Stmt Unit)) (n : Nat) : Rule (Stmt Unit) := do
  let t ← peek
  match t.kind with
  | .keyword .for => take *> forStatement inner n
  | .keyword .if => take *> ifStatement inner n
  | .keyword .while => take *> whileStatement inner n
  | .keyword .return => take *> returnStatement n t
  | .punct .leftBrace => take *> (.block <$> block nested n)
  | .keyword .print => take *> printStatement n
  | _ => expressionStatement n

/-- The tokens from the next statement boundary on, `previous` being the last token skipped. -/
def boundary (previous : Token) : List Token → List Token
  | [] => []
  | t :: rest =>
    if t.isEnd || previous.isPunct .semicolon || t.startsStatement then t :: rest
    else boundary t rest

/-- Skips the token at which a rule was given up and then all tokens up to a statement boundary. -/
def skipToBoundary : List Token → List Token
  | [] => []
  | t :: rest => if t.isEnd then t :: rest else boundary t rest

/-- Goes on at the next statement boundary when `r` is given up. -/
def recovering (r : Rule (Stmt Unit)) : Rule (Stmt Unit) :=
  fun ts =>
    match r ts with
    | ⟨some s, errors, rest⟩ => ⟨some s, errors, rest⟩
    | ⟨none, errors, rest⟩ => ⟨none, errors, skipToBoundary rest⟩

def anyDeclaration (inner nested : Rule (Stmt Unit)) (n : Nat) : Rule (Stmt Unit) :=
  recovering do
    match (← peek).kind with
    | .keyword .fun => take *> function nested n
    | .keyword .var => take *> varDeclaration n
    | _ => anyStatement inner nested n

mutual

def statement : Nat → Rule (Stmt Unit)
  | 0 => fail (.expected .expression)
  | n + 1 => anyStatement (statement n) (declaration n) (n + 1)

def declaration : Nat → Rule (Stmt Unit)
  | 0 => fail (.expected .expression)
  | n + 1 => anyDeclaration (statement n) (declaration n) (n + 1)

end

/-- The declarations that could be read, all errors, and the tokens behind the last declaration. -/
structure Program where
  statements : List (Stmt Unit)
  errors : List SyntaxError
  rest : List Token

/-- Reads a whole program. -/
def program (tokens : List Token) : Program :=
  let n := tokens.length
  let reply := declarations (declaration n) (fun _ => false) n tokens
  ⟨reply.result.getD [], reply.errors, reply.rest⟩

end Lox.Grammar
