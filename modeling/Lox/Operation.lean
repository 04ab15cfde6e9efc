import Lox.Machine

/-!
What operators do to values. An operator is a token of any kind; most kinds are no operator, and a
tree that has one in the place of an operator can be built but not evaluated.
-/

namespace Lox.Operation

def numbers (left right : Value) (result : Float → Float → Value) : Except RuntimeProblem Value :=
  match left, right with
  | .number x, .number y => .ok (result x y)
  | _, _ => .error .operandsNotNumbers

def unary (operator : Kind) (operand : Value) : Except RuntimeProblem Value :=
  match operator with
  | .punct .minus =>
    match operand with
    | .number x => .ok (.number (-x))
    | _ => .error .operandNotNumber
  | .punct .bang => .ok (.bool (!operand.isTruthy))
  | _ => .error .invalidUnary

/-- Addition joins strings as well. -/
def add (left right : Value) : Except RuntimeProblem Value :=
  match left, right with
  | .number x, .number y => .ok (.number (x + y))
  | .string s, .string t => .ok (.string (s ++ t))
  | _, _ => .error .operandsNotAddable

def binary (operator : Kind) (left right : Value) : Except RuntimeProblem Value :=
  match operator with
  | .punct .plus => add left right
  | .punct .minus => numbers left right fun x y => .number (x - y)
  | .punct .star => numbers left right fun x y => .number (x * y)
  | .punct .slash => numbers left right fun x y => .number (x / y)
  | .punct .greater => numbers left right fun x y => .bool (decide (x > y))
  | .punct .greaterEqual => numbers left right fun x y => .bool (decide (x ≥ y))
  | .punct .less => numbers left right fun x y => .bool (decide (x < y))
  | .punct .lessEqual => numbers left right fun x y => .bool (decide (x ≤ y))
  | .punct .equalEqual => .ok (.bool (left.equals right))
  | .punct .bangEqual => .ok (.bool (!left.equals right))
  | _ => .error .invalidBinary

/-- Whether a logical operator has its left operand as its value. Only `or` stops at true values. -/
def shortCircuits (operator : Kind) (left : Value) : Bool :=
  match operator with
  | .keyword .or => left.isTruthy
  | _ => !left.isTruthy

end Lox.Operation
