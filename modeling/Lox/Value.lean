import Lox.Syntax.Reference

/-!
Run-time values: how they compare, which of them are true, and how they are shown. Functions are
compared by identity and not by what they do.
-/

namespace Lox

/-- The number of a frame in the store. -/
abbrev FrameId := Nat

/-- What a host function does when it is called. -/
inductive Action
  | clock
  | echo
  | fail
  | ignore
deriving DecidableEq

/-- A function of the host. Its name identifies it. -/
structure Native where
  name : String
  arity : Nat
  action : Action
deriving DecidableEq

def Native.clock : Native := ⟨"clock", 0, .clock⟩

/-- A function of the program, with the frame in which its declaration was executed. Executing the
    same declaration again makes a function with another identity. -/
structure Closure where
  identity : Nat
  name : Token
  parameters : List Token
  body : List (Stmt RefId)
  frame : FrameId

inductive Value
  | nil
  | bool (b : Bool)
  | number (x : Float)
  | string (s : String)
  | native (f : Native)
  | function (f : Closure)

namespace Value

instance : Inhabited Value := ⟨nil⟩

def ofLiteral : Literal → Value
  | .number x => number x
  | .string s => string s
  | .bool b => bool b
  | .nil => nil

/-- Only `nil` and `false` are not true. -/
def isTruthy : Value → Bool
  | nil => false
  | bool b => b
  | _ => true

def kindName : Value → String
  | nil => "nil"
  | bool _ => "boolean"
  | number _ => "number"
  | string _ => "string"
  | native _ | function _ => "function"

/-- Values of different kinds differ. Numbers compare as in arithmetic, so NaN differs from itself
    and the two zeros are equal. -/
def equals : Value → Value → Bool
  | nil, nil => true
  | bool a, bool b => a == b
  | number x, number y => x == y
  | string s, string t => s == t
  | native f, native g => f.name == g.name
  | function f, function g => f.identity == g.identity
  | _, _ => false

/-- Whole numbers that a machine integer can hold are written as one. -/
def numberStyle : Decimal.Style where
  exact n := n < Nat.pow 2 63
  suffix := []
  signedZero := false

/-- The value as `print` shows it. -/
def text : Value → String
  | nil => "nil"
  | bool true => "true"
  | bool false => "false"
  | number x => numberStyle.write x
  | string s => s
  | native _ => "<native fn>"
  | function f => "<fn " ++ f.name.lexeme ++ ">"

end Value

/-- A value in the place of a callee. -/
inductive Callable
  | native (f : Native)
  | function (f : Closure)

def Value.callable? : Value → Option Callable
  | native f => some (.native f)
  | function f => some (.function f)
  | _ => none

def Callable.arity : Callable → Nat
  | native f => f.arity
  | function f => f.parameters.length

end Lox
