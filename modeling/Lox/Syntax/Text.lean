import Lox.Syntax.Tree

/-!
Trees in parenthesised form: the operator first, then the operands, as in
`(* (- 123.0) (group 45.67))`.
-/

namespace Lox

/-- Whole numbers are written with all their digits and one decimal place. -/
def Literal.numberStyle : Decimal.Style where
  exact _ := true
  suffix := ['.', '0']
  signedZero := true

def Literal.chars : Literal → List Char
  | number value => numberStyle.chars value
  | string contents => contents.toList
  | bool true => ['t', 'r', 'u', 'e']
  | bool false => ['f', 'a', 'l', 's', 'e']
  | nil => ['n', 'i', 'l']

variable {ρ : Type}

mutual

def Expr.chars : Expr ρ → List Char
  | .literal value => value.chars
  | .grouping inner => "(group ".toList ++ inner.chars ++ [')']
  | .unary operator operand => '(' :: operator.lexeme.toList ++ ' ' :: operand.chars ++ [')']
  | .binary left operator right =>
    '(' :: operator.lexeme.toList ++ ' ' :: left.chars ++ ' ' :: right.chars ++ [')']
  | .logical left operator right =>
    '(' :: operator.lexeme.toList ++ ' ' :: left.chars ++ ' ' :: right.chars ++ [')']
  | .var _ name => name.lexeme.toList
  | .assign _ name value => "(= ".toList ++ name.lexeme.toList ++ ' ' :: value.chars ++ [')']
  | .call callee _ arguments =>
    "(call ".toList ++ callee.chars ++ Expr.charsAll arguments ++ [')']

/-- Every tree behind a blank. -/
def Expr.charsAll : List (Expr ρ) → List Char
  | [] => []
  | e :: es => ' ' :: e.chars ++ Expr.charsAll es

end

def Expr.text (e : Expr ρ) : String :=
  String.ofList e.chars

mutual

def Stmt.chars : Stmt ρ → List Char
  | .expression e => "(expr ".toList ++ e.chars ++ [')']
  | .print e => "(print ".toList ++ e.chars ++ [')']
  | .var name none => "(var ".toList ++ name.lexeme.toList ++ [')']
  | .var name (some e) => "(var ".toList ++ name.lexeme.toList ++ ' ' :: e.chars ++ [')']
  | .block body => "(block".toList ++ Stmt.charsAll body ++ [')']
  | .if condition thenBranch none =>
    "(if ".toList ++ condition.chars ++ ' ' :: thenBranch.chars ++ [')']
  | .if condition thenBranch (some elseBranch) =>
    "(if ".toList ++ condition.chars ++ ' ' :: thenBranch.chars ++ ' ' :: elseBranch.chars ++ [')']
  | .while condition body => "(while ".toList ++ condition.chars ++ ' ' :: body.chars ++ [')']
  | .function name parameters body =>
    "(fun ".toList ++ name.lexeme.toList ++ " (".toList ++
      (" ".intercalate (parameters.map (·.lexeme))).toList ++ ')' :: Stmt.charsAll body ++ [')']
  | .return keyword none => "(return@".toList ++ Decimal.digits keyword.line ++ [')']
  | .return keyword (some e) =>
    "(return@".toList ++ Decimal.digits keyword.line ++ ' ' :: e.chars ++ [')']

def Stmt.charsAll : List (Stmt ρ) → List Char
  | [] => []
  | s :: rest => ' ' :: s.chars ++ Stmt.charsAll rest

end

def Stmt.text (s : Stmt ρ) : String :=
  String.ofList s.chars

end Lox
