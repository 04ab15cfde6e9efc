import Lox.Token

/-!
Syntax trees. A tree is parametric in what its references carry: grammar rules build trees over
`Unit`, and later stages give every reference an identity. A reference is a variable that is read
or a variable that is assigned to.
-/

namespace Lox

inductive Literal
  | number (value : Float)
  | string (contents : String)
  | bool (b : Bool)
  | nil

/-- Operators are whole tokens, because errors are reported at them. -/
inductive Expr (ρ : Type)
  | literal (value : Literal)
  | grouping (inner : Expr ρ)
  | unary (operator : Token) (operand : Expr ρ)
  | binary (left : Expr ρ) (operator : Token) (right : Expr ρ)
  | logical (left : Expr ρ) (operator : Token) (right : Expr ρ)
  | var (ref : ρ) (name : Token)
  | assign (ref : ρ) (name : Token) (value : Expr ρ)
  | call (callee : Expr ρ) (paren : Token) (arguments : List (Expr ρ))

/-- There is no `for`: it is read as the loop that it abbreviates. -/
inductive Stmt (ρ : Type)
  | expression (e : Expr ρ)
  | print (e : Expr ρ)
  | var (name : Token) (initializer : Option (Expr ρ))
  | block (body : List (Stmt ρ))
  | «if» (condition : Expr ρ) (thenBranch : Stmt ρ) (elseBranch : Option (Stmt ρ))
  | «while» (condition : Expr ρ) (body : Stmt ρ)
  | function (name : Token) (parameters : List Token) (body : List (Stmt ρ))
  | «return» (keyword : Token) (value : Option (Expr ρ))

instance {ρ : Type} : Inhabited (Expr ρ) := ⟨.literal .nil⟩

instance {ρ : Type} : Inhabited (Stmt ρ) := ⟨.block []⟩

end Lox
