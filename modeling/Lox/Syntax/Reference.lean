import Lox.Syntax.Tree

/-!
References of a tree, and their identities. `number` walks a tree in the order in which it is
evaluated and gives its references consecutive identities, so that no two references of a session
share one as long as each tree starts where the tree before it stopped.
-/

namespace Lox

/-- The identity of a reference, unique in a session. -/
abbrev RefId := Nat

variable {ρ : Type}

mutual

/-- All references, an assignment's behind those of its value. -/
def Expr.references : Expr ρ → List (ρ × Token)
  | .literal _ => []
  | .grouping inner => inner.references
  | .unary _ operand => operand.references
  | .binary left _ right => left.references ++ right.references
  | .logical left _ right => left.references ++ right.references
  | .var ref name => [(ref, name)]
  | .assign ref name value => value.references ++ [(ref, name)]
  | .call callee _ arguments => callee.references ++ Expr.referencesAll arguments

def Expr.referencesAll : List (Expr ρ) → List (ρ × Token)
  | [] => []
  | e :: es => e.references ++ Expr.referencesAll es

end

mutual

def Stmt.references : Stmt ρ → List (ρ × Token)
  | .expression e => e.references
  | .print e => e.references
  | .var _ none => []
  | .var _ (some e) => e.references
  | .block body => Stmt.referencesAll body
  | .if condition thenBranch none => condition.references ++ thenBranch.references
  | .if condition thenBranch (some elseBranch) =>
    condition.references ++ (thenBranch.references ++ elseBranch.references)
  | .while condition body => condition.references ++ body.references
  | .function _ _ body => Stmt.referencesAll body
  | .return _ none => []
  | .return _ (some e) => e.references

def Stmt.referencesAll : List (Stmt ρ) → List (ρ × Token)
  | [] => []
  | s :: rest => s.references ++ Stmt.referencesAll rest

end

mutual

/-- Numbers the references from `next` on, and tells the first number that is left. -/
def Expr.number (next : RefId) : Expr ρ → Expr RefId × RefId
  | .literal value => (.literal value, next)
  | .grouping inner =>
    let inner := inner.number next
    (.grouping inner.1, inner.2)
  | .unary operator operand =>
    let operand := operand.number next
    (.unary operator operand.1, operand.2)
  | .binary left operator right =>
    let left := left.number next
    let right := right.number left.2
    (.binary left.1 operator right.1, right.2)
  | .logical left operator right =>
    let left := left.number next
    let right := right.number left.2
    (.logical left.1 operator right.1, right.2)
  | .var _ name => (.var next name, next + 1)
  | .assign _ name value =>
    let value := value.number next
    (.assign value.2 name value.1, value.2 + 1)
  | .call callee paren arguments =>
    let callee := callee.number next
    let arguments := Expr.numberAll callee.2 arguments
    (.call callee.1 paren arguments.1, arguments.2)

def Expr.numberAll (next : RefId) : List (Expr ρ) → List (Expr RefId) × RefId
  | [] => ([], next)
  | e :: es =>
    let e := e.number next
    let es := Expr.numberAll e.2 es
    (e.1 :: es.1, es.2)

end

mutual

def Stmt.number (next : RefId) : Stmt ρ → Stmt RefId × RefId
  | .expression e =>
    let e := e.number next
    (.expression e.1, e.2)
  | .print e =>
    let e := e.number next
    (.print e.1, e.2)
  | .var name none => (.var name none, next)
  | .var name (some e) =>
    let e := e.number next
    (.var name (some e.1), e.2)
  | .block body =>
    let body := Stmt.numberAll next body
    (.block body.1, body.2)
  | .if condition thenBranch none =>
    let condition := condition.number next
    let thenBranch := thenBranch.number condition.2
    (.if condition.1 thenBranch.1 none, thenBranch.2)
  | .if condition thenBranch (some elseBranch) =>
    let condition := condition.number next
    let thenBranch := thenBranch.number condition.2
    let elseBranch := elseBranch.number thenBranch.2
    (.if condition.1 thenBranch.1 (some elseBranch.1), elseBranch.2)
  | .while condition body =>
    let condition := condition.number next
    let body := body.number condition.2
    (.while condition.1 body.1, body.2)
  | .function name parameters body =>
    let body := Stmt.numberAll next body
    (.function name parameters body.1, body.2)
  | .return keyword none => (.return keyword none, next)
  | .return keyword (some e) =>
    let e := e.number next
    (.return keyword (some e.1), e.2)

def Stmt.numberAll (next : RefId) : List (Stmt ρ) → List (Stmt RefId) × RefId
  | [] => ([], next)
  | s :: rest =>
    let s := s.number next
    let rest := Stmt.numberAll s.2 rest
    (s.1 :: rest.1, rest.2)

end

end Lox
