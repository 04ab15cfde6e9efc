import Lox.Scope
import Lox.Store

/-!
The state of a running program, and the steps that touch it: reading and writing variables, entering
and leaving frames, printing. A step gives a value or stops with an error; either way there is a
state afterwards, and frames that were entered are left.
-/

namespace Lox

inductive RuntimeProblem
  | operandNotNumber
  | operandsNotNumbers
  | operandsNotAddable
  | invalidUnary
  | invalidBinary
  | undefined (name : String)
  | notCallable
  | wrongArity (expected given : Nat)
  | stackOverflow
  | hostFailure (message : String)
deriving DecidableEq

def RuntimeProblem.message : RuntimeProblem → String
  | operandNotNumber => "Operand must be a number."
  | operandsNotNumbers => "Operands must be numbers."
  | operandsNotAddable => "Operands must be two numbers or two strings."
  | invalidUnary => "Invalid unary operator."
  | invalidBinary => "Invalid binary operator."
  | undefined name => "Undefined variable '" ++ name ++ "'."
  | notCallable => "Can only call functions."
  | wrongArity expected given =>
    "Expected " ++ toString expected ++ " arguments but got " ++ toString given ++ "."
  | stackOverflow => "Stack overflow."
  | hostFailure message => message

/-- A run-time error stands at the token that could not be carried out. -/
structure RuntimeError where
  token : Token
  problem : RuntimeProblem

/-- Why a step has no value: an error of the program, or a bound on the run that was too low. -/
inductive Stop
  | error (e : RuntimeError)
  | outOfFuel

/-- The readings that calls of `clock` will give, in seconds, and how many were taken. -/
structure Clock where
  reading : Nat → Float
  taken : Nat

/-- Readings that go on from `seconds` by a tenth of a microsecond each. -/
def Clock.ticking (seconds : Float) (n : Nat) : Float :=
  seconds + n.toFloat / 10000000

structure Machine where
  store : Store
  globals : FrameId
  environment : FrameId
  callDepth : Nat
  distances : Distances
  functions : Nat
  clock : Clock
  output : String

/-- User functions nest at most this deep. -/
def maxCallDepth : Nat := 200

/-- A machine on which nothing has run. Its only binding is the global `clock`. -/
def Machine.start (reading : Nat → Float) : Machine where
  store := (Store.empty.push (.empty none)).define 0 Native.clock.name (.native .clock)
  globals := 0
  environment := 0
  callDepth := 0
  distances := ∅
  functions := 0
  clock := ⟨reading, 0⟩
  output := ""

/-- Adds what scoping found out about a program that is about to run. -/
def Machine.learn (m : Machine) (findings : Findings) : Machine :=
  { m with distances := m.distances.insertMany findings.distances }

/-- A step of a machine. -/
abbrev Step := EStateM Stop Machine

namespace Step

variable {α : Type}

def fail (token : Token) (problem : RuntimeProblem) : Step α :=
  throw (.error ⟨token, problem⟩)

/-- Takes the outcome of an operation at `token`. -/
def ofExcept (token : Token) : Except RuntimeProblem α → Step α
  | .ok a => pure a
  | .error problem => fail token problem

/-- The value of a reference: in the frame at its distance, or in the globals if it has none. -/
def lookUp (ref : RefId) (name : Token) : Step Value := do
  let m ← get
  let found := match m.distances[ref]? with
    | some distance => m.store.getAt? m.environment distance name.lexeme
    | none => m.store.get? m.globals name.lexeme
  match found with
  | some value => pure value
  | none => fail name (.undefined name.lexeme)

/-- Gives a reference a new value, in the place where `lookUp` finds the old one. -/
def assign (ref : RefId) (name : Token) (value : Value) : Step Unit := fun m =>
  let (found, store) := match m.distances[ref]? with
    | some distance => m.store.assignAt m.environment distance name.lexeme value
    | none => m.store.assign m.globals name.lexeme value
  let m := { m with store }
  if found then .ok () m else .error (.error ⟨name, .undefined name.lexeme⟩) m

/-- Binds a name in the current frame. -/
def define (name : Token) (value : Value) : Step Unit :=
  modify fun m => { m with store := m.store.define m.environment name.lexeme value }

/-- Makes a function of a declaration in the current frame. -/
def makeFunction (name : Token) (parameters : List Token) (body : List (Stmt RefId)) :
    Step Value :=
  modifyGet fun m =>
    (.function ⟨m.functions, name, parameters, body, m.environment⟩,
      { m with functions := m.functions + 1 })

def print (value : Value) : Step Unit :=
  modify fun m => { m with output := m.output ++ value.text ++ "\n" }

def readClock : Step Value :=
  modifyGet fun m =>
    (.number (m.clock.reading m.clock.taken),
      { m with clock := { m.clock with taken := m.clock.taken + 1 } })

/-- Runs `body` in a new frame enclosed by `enclosing`, and comes back to the frame from before,
    whether `body` gives a value or stops. -/
def inFrame (enclosing : FrameId) (bindings : List (String × Value)) (body : Step α) : Step α :=
  fun m =>
    let outer := m.environment
    let inner := m.store.next
    let frame := bindings.foldl (fun f b => f.define b.1 b.2) (Frame.empty (some enclosing))
    match body { m with store := m.store.push frame, environment := inner } with
    | .ok a m => .ok a { m with environment := outer }
    | .error stop m => .error stop { m with environment := outer }

/-- Counts `body` as a call in progress, unless there are too many. -/
def asCall (paren : Token) (body : Step α) : Step α :=
  fun m =>
    if maxCallDepth ≤ m.callDepth then .error (.error ⟨paren, .stackOverflow⟩) m
    else
      match body { m with callDepth := m.callDepth + 1 } with
      | .ok a m => .ok a { m with callDepth := m.callDepth - 1 }
      | .error stop m => .error stop { m with callDepth := m.callDepth - 1 }

end Step

end Lox
