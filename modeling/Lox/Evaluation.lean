import Lox.Operation

/-!
Evaluation of expressions and execution of statements. `fuel` bounds how deep a run nests, where
every turn of a loop counts as nested in the turn before it; a run that needs more stops with
`outOfFuel`, and more fuel never changes a run that did not.
-/

namespace Lox

/-- How a statement ends: the next one follows, or the call in progress has its value. -/
inductive Flow
  | normal
  | returned (value : Value)

/-- Runs statements in order, up to the first that returns. -/
def Step.inOrder (run : Stmt RefId → Step Flow) : List (Stmt RefId) → Step Flow
  | [] => pure .normal
  | s :: rest => do
    match ← run s with
    | .normal => Step.inOrder run rest
    | .returned value => pure (.returned value)

/-- The values of expressions, from left to right. -/
def Step.values (evaluate : Expr RefId → Step Value) : List (Expr RefId) → Step (List Value)
  | [] => pure []
  | e :: es => do
    let value ← evaluate e
    return value :: (← Step.values evaluate es)

/-- The callee of a call with `given` arguments. -/
def Value.callee (callee : Value) (given : Nat) : Except RuntimeProblem Callable :=
  match callee.callable? with
  | none => .error .notCallable
  | some f => if given = f.arity then .ok f else .error (.wrongArity f.arity given)

def Native.call (f : Native) (arguments : List Value) (paren : Token) : Step Value :=
  match f.action with
  | .clock => Step.readClock
  | .echo => pure (arguments.headD .nil)
  | .fail =>
    Step.fail paren
      (.hostFailure ("native failed on " ++ toString arguments.length ++ " arguments"))
  | .ignore => pure .nil

/-- A call without a `return` has the value `nil`. -/
def Flow.value : Flow → Value
  | normal => .nil
  | returned value => value

mutual

def evaluate : Nat → Expr RefId → Step Value
  | 0, _ => throw .outOfFuel
  | fuel + 1, e =>
    match e with
    | .literal value => pure (.ofLiteral value)
    | .grouping inner => evaluate fuel inner
    | .unary operator operand => do
      let value ← evaluate fuel operand
      .ofExcept operator (Operation.unary operator.kind value)
    | .binary left operator right => do
      let leftValue ← evaluate fuel left
      let rightValue ← evaluate fuel right
      .ofExcept operator (Operation.binary operator.kind leftValue rightValue)
    | .logical left operator right => do
      let leftValue ← evaluate fuel left
      if Operation.shortCircuits operator.kind leftValue then pure leftValue
      else evaluate fuel right
    | .var ref name => .lookUp ref name
    | .assign ref name value => do
      let value ← evaluate fuel value
      .assign ref name value
      pure value
    | .call callee paren arguments => do
      let calleeValue ← evaluate fuel callee
      let argumentValues ← .values (evaluate fuel) arguments
      let f ← .ofExcept paren (calleeValue.callee argumentValues.length)
      call fuel f argumentValues paren

/-- Calls a function without a look at its arity. An argument without a parameter is dropped, and
    a parameter without an argument is not bound. -/
def call : Nat → Callable → List Value → Token → Step Value
  | 0, _, _, _ => throw .outOfFuel
  | fuel + 1, f, arguments, paren =>
    match f with
    | .native f => f.call arguments paren
    | .function f => do
      let bindings := (f.parameters.map (·.lexeme)).zip arguments
      let flow ← .asCall paren (.inFrame f.frame bindings (.inOrder (execute fuel) f.body))
      pure flow.value

def execute : Nat → Stmt RefId → Step Flow
  | 0, _ => throw .outOfFuel
  | fuel + 1, s =>
    match s with
    | .expression e => do
      let _ ← evaluate fuel e
      pure .normal
    | .print e => do
      .print (← evaluate fuel e)
      pure .normal
    | .var name none => do
      .define name .nil
      pure .normal
    | .var name (some e) => do
      .define name (← evaluate fuel e)
      pure .normal
    | .block body => do
      .inFrame (← get).environment [] (.inOrder (execute fuel) body)
    | .if condition thenBranch elseBranch => do
      if (← evaluate fuel condition).isTruthy then execute fuel thenBranch
      else
        match elseBranch with
        | some elseBranch => execute fuel elseBranch
        | none => pure .normal
    | .while condition body => loop fuel condition body
    | .function name parameters body => do
      .define name (← .makeFunction name parameters body)
      pure .normal
    | .return _ none => pure (.returned .nil)
    | .return _ (some e) => do
      return .returned (← evaluate fuel e)

/-- The turns of a loop. A `return` in the body ends it at once. -/
def loop : Nat → Expr RefId → Stmt RefId → Step Flow
  | 0, _, _ => throw .outOfFuel
  | fuel + 1, condition, body => do
    if (← evaluate fuel condition).isTruthy then
      match ← execute fuel body with
      | .normal => loop fuel condition body
      | .returned value => pure (.returned value)
    else
      pure .normal

end

/-- Runs a program. A `return` outside all functions ends its own statement only. -/
def runProgram (fuel : Nat) : List (Stmt RefId) → Step Unit
  | [] => pure ()
  | s :: rest => do
    let _ ← execute fuel s
    runProgram fuel rest

end Lox
