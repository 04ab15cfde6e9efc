import Lox.Token

/-!
Grammar rules. A rule takes the tokens that are left and replies with a tree or without one, the
errors it found, in order, and the tokens it did not take. A reply without a tree is a rule given
up; its error is already among the errors. A rule may also report an error and carry on.
-/

namespace Lox

/-- A place in the grammar at which one particular thing has to stand. -/
inductive Slot
  | expression
  | endOfExpression
  | closeGrouping
  | closeArguments
  | functionName
  | openParameters
  | parameterName
  | closeParameters
  | openBody
  | closeBlock
  | variableName
  | endOfVariable
  | openFor
  | endOfLoopCondition
  | closeFor
  | openIf
  | closeIf
  | openWhile
  | closeWhile
  | endOfReturn
  | endOfPrint
  | endOfStatement
deriving DecidableEq

def Slot.description : Slot → String
  | expression => "expression"
  | endOfExpression => "end of expression"
  | closeGrouping => "')' after expression"
  | closeArguments => "')' after arguments"
  | functionName => "function name"
  | openParameters => "'(' after function name"
  | parameterName => "parameter name"
  | closeParameters => "')' after parameters"
  | openBody => "'\x7b' before function body"
  | closeBlock => "'\x7d' after block"
  | variableName => "variable name"
  | endOfVariable => "';' after variable declaration"
  | openFor => "'(' after 'for'"
  | endOfLoopCondition => "';' after loop condition"
  | closeFor => "')' after for clauses"
  | openIf => "'(' after 'if'"
  | closeIf => "')' after if condition"
  | openWhile => "'(' after 'while'"
  | closeWhile => "')' after condition"
  | endOfReturn => "';' after return value"
  | endOfPrint => "';' after value"
  | endOfStatement => "';' after expression"

inductive SyntaxProblem
  | expected (slot : Slot)
  | invalidAssignmentTarget
  | tooManyArguments
  | tooManyParameters
deriving DecidableEq

/-- Calls and functions have at most this many arguments and parameters. -/
def maxArguments : Nat := 255

def SyntaxProblem.message : SyntaxProblem → String
  | expected slot => "Expected " ++ slot.description ++ "."
  | invalidAssignmentTarget => "Invalid assignment target."
  | tooManyArguments => "Can't have more than " ++ toString maxArguments ++ " arguments."
  | tooManyParameters => "Can't have more than " ++ toString maxArguments ++ " parameters."

/-- A syntax error stands at the token where it was noticed. -/
structure SyntaxError where
  token : Token
  problem : SyntaxProblem

namespace Token

def isPunct (p : Punct) (t : Token) : Bool :=
  match t.kind with
  | .punct q => q = p
  | _ => false

def isKeyword (k : Keyword) (t : Token) : Bool :=
  match t.kind with
  | .keyword l => l = k
  | _ => false

def isIdentifier (t : Token) : Bool :=
  match t.kind with
  | .identifier => true
  | _ => false

def isEnd (t : Token) : Bool :=
  match t.kind with
  | .eof => true
  | _ => false

/-- The keywords at which reading resumes after an error. -/
def startsStatement (t : Token) : Bool :=
  match t.kind with
  | .keyword .class | .keyword .fun | .keyword .var | .keyword .for
  | .keyword .if | .keyword .while | .keyword .print | .keyword .return => true
  | _ => false

end Token

structure Reply (α : Type) where
  result : Option α
  errors : List SyntaxError
  rest : List Token

/-- A rule never takes an end token. -/
def Rule (α : Type) := List Token → Reply α

/-- The token in front. Reading past the last token finds the end. -/
def front : List Token → Token
  | [] => default
  | t :: _ => t

namespace Rule

variable {α β : Type}

@[always_inline, inline]
protected def pure (a : α) : Rule α :=
  fun ts => ⟨some a, [], ts⟩

@[always_inline, inline]
protected def bind (r : Rule α) (next : α → Rule β) : Rule β :=
  fun ts =>
    match r ts with
    | ⟨none, errors, rest⟩ => ⟨none, errors, rest⟩
    | ⟨some a, errors, rest⟩ =>
      let reply := next a rest
      ⟨reply.result, errors ++ reply.errors, reply.rest⟩

instance : Monad Rule where
  pure := Rule.pure
  bind := Rule.bind

theorem pure_apply (a : α) (ts : List Token) : (pure a : Rule α) ts = ⟨some a, [], ts⟩ := rfl

/-- A rule behind one that was given up does not run. -/
theorem bind_apply_of_none {r : Rule α} {next : α → Rule β} {ts : List Token}
    (h : (r ts).result = none) :
    (r >>= next) ts = ⟨none, (r ts).errors, (r ts).rest⟩ := by
  change Rule.bind r next ts = _
  unfold Rule.bind
  split <;> simp_all

/-- Otherwise its errors come behind those of the first. -/
theorem bind_apply_of_some {r : Rule α} {next : α → Rule β} {ts : List Token} {a : α}
    (h : (r ts).result = some a) :
    (r >>= next) ts =
      ⟨(next a (r ts).rest).result, (r ts).errors ++ (next a (r ts).rest).errors,
        (next a (r ts).rest).rest⟩ := by
  change Rule.bind r next ts = _
  unfold Rule.bind
  split <;> simp_all

/-- Rules in a row can be grouped in any way. -/
protected theorem bind_assoc {γ : Type} (r : Rule α) (next : α → Rule β) (last : β → Rule γ) :
    r >>= next >>= last = r >>= fun a => next a >>= last := by
  funext ts
  cases hr : (r ts).result with
  | none =>
    have hfirst : ((r >>= next) ts).result = none := by rw [bind_apply_of_none hr]
    rw [bind_apply_of_none hfirst, bind_apply_of_none hr, bind_apply_of_none hr]
  | some a =>
    cases hnext : (next a (r ts).rest).result with
    | none =>
      have hfirst : ((r >>= next) ts).result = none := by rw [bind_apply_of_some hr, hnext]
      rw [bind_apply_of_none hfirst, bind_apply_of_some hr, bind_apply_of_some hr,
        bind_apply_of_none hnext]
    | some b =>
      have hfirst : ((r >>= next) ts).result = some b := by rw [bind_apply_of_some hr, hnext]
      rw [bind_apply_of_some hfirst, bind_apply_of_some hr, bind_apply_of_some hr,
        bind_apply_of_some hnext, List.append_assoc]

/-- Gives up at the token in front. -/
def fail (problem : SyntaxProblem) : Rule α :=
  fun ts => ⟨none, [⟨front ts, problem⟩], ts⟩

/-- Reports an error and carries on. -/
def report (token : Token) (problem : SyntaxProblem) : Rule Unit :=
  fun ts => ⟨some (), [⟨token, problem⟩], ts⟩

def peek : Rule Token :=
  fun ts => ⟨some (front ts), [], ts⟩

def take : Rule Token :=
  fun ts => ⟨some (front ts), [], ts.tail⟩

/-- Takes the token in front if it passes the test. -/
def accept? (test : Token → Bool) : Rule (Option Token) :=
  fun ts =>
    match ts with
    | [] => ⟨some none, [], []⟩
    | t :: rest => if test t then ⟨some (some t), [], rest⟩ else ⟨some none, [], t :: rest⟩

/-- Takes the token that has to stand in `slot`, or gives up. -/
def expect (test : Token → Bool) (slot : Slot) : Rule Token :=
  fun ts =>
    match ts with
    | [] => fail (.expected slot) []
    | t :: rest => if test t then ⟨some t, [], rest⟩ else fail (.expected slot) (t :: rest)

end Rule

end Lox
