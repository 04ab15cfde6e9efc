import Lox.Syntax.Reference
import Std.Data.TreeMap

/-!
Lexical scoping. Blocks and functions open scopes; a walk over a program finds, for every reference
to a name that a scope around it declares, how many scopes lie between the two. The walk never
enters the global scope: a reference without a distance is global. It reports what scoping forbids
and goes on.
-/

namespace Lox

/-- The names declared so far in one scope, the latest first, each with whether it is defined: a
    variable is declared before its initializer and defined behind it. -/
abbrev Scope := List (String × Bool)

inductive ScopeProblem
  | readInInitializer
  | returnOutsideFunction
deriving DecidableEq

def ScopeProblem.message : ScopeProblem → String
  | readInInitializer => "Can't read local variable in its own initializer."
  | returnOutsideFunction => "Can't return from top-level code."

structure ScopeError where
  token : Token
  problem : ScopeProblem

/-- What a walk has found, in the order in which it met the references. -/
structure Findings where
  distances : List (RefId × Nat)
  errors : List ScopeError

namespace Findings

def none : Findings := ⟨[], []⟩

instance : Append Findings where
  append f g := ⟨f.distances ++ g.distances, f.errors ++ g.errors⟩

end Findings

/-- The distances of a program by reference. -/
abbrev Distances := Std.TreeMap RefId Nat

def Findings.table (f : Findings) : Distances :=
  .ofList f.distances

namespace Scope

/-- Records a name in the innermost scope. Global names are not recorded. -/
def record (name : Token) (defined : Bool) : List Scope → List Scope
  | [] => []
  | scope :: outer => ((name.lexeme, defined) :: scope) :: outer

/-- How many scopes lie between a reference and the innermost scope that declares its name. -/
def distance? (scopes : List Scope) (name : Token) : Option Nat :=
  scopes.findIdx? fun scope => (scope.lookup name.lexeme).isSome

/-- A name of the innermost scope that is declared but not yet defined. -/
def isPending (scopes : List Scope) (name : Token) : Bool :=
  match scopes with
  | [] => false
  | scope :: _ => scope.lookup name.lexeme == some false

def ofReference (scopes : List Scope) (ref : RefId) (name : Token) : Findings :=
  match distance? scopes name with
  | some distance => ⟨[(ref, distance)], []⟩
  | none => .none

/-- A function's own scope, with its parameters. -/
def ofParameters (parameters : List Token) : Scope :=
  parameters.foldl (fun scope p => (p.lexeme, true) :: scope) []

end Scope

/-- A `return` needs a function around it. -/
def Findings.ofReturn (inFunction : Bool) (keyword : Token) : Findings :=
  if inFunction then .none else ⟨[], [⟨keyword, .returnOutsideFunction⟩]⟩

mutual

def Expr.findings (scopes : List Scope) : Expr RefId → Findings
  | .literal _ => .none
  | .grouping inner => inner.findings scopes
  | .unary _ operand => operand.findings scopes
  | .binary left _ right => left.findings scopes ++ right.findings scopes
  | .logical left _ right => left.findings scopes ++ right.findings scopes
  | .var ref name =>
    let errors := if Scope.isPending scopes name then [⟨name, .readInInitializer⟩] else []
    ⟨[], errors⟩ ++ Scope.ofReference scopes ref name
  | .assign ref name value => value.findings scopes ++ Scope.ofReference scopes ref name
  | .call callee _ arguments => callee.findings scopes ++ Expr.findingsAll scopes arguments

def Expr.findingsAll (scopes : List Scope) : List (Expr RefId) → Findings
  | [] => .none
  | e :: es => e.findings scopes ++ Expr.findingsAll scopes es

end

mutual

/-- Walks a statement, and gives the scopes with what it declares. -/
def Stmt.findings (inFunction : Bool) (scopes : List Scope) : Stmt RefId → Findings × List Scope
  | .expression e => (e.findings scopes, scopes)
  | .print e => (e.findings scopes, scopes)
  | .var name none => (.none, Scope.record name true (Scope.record name false scopes))
  | .var name (some e) =>
    let declared := Scope.record name false scopes
    (e.findings declared, Scope.record name true declared)
  | .block body => ((Stmt.findingsAll inFunction ([] :: scopes) body).1, scopes)
  | .if condition thenBranch none =>
    let afterThen := thenBranch.findings inFunction scopes
    (condition.findings scopes ++ afterThen.1, afterThen.2)
  | .if condition thenBranch (some elseBranch) =>
    let afterThen := thenBranch.findings inFunction scopes
    let afterElse := elseBranch.findings inFunction afterThen.2
    (condition.findings scopes ++ (afterThen.1 ++ afterElse.1), afterElse.2)
  | .while condition body =>
    let afterBody := body.findings inFunction scopes
    (condition.findings scopes ++ afterBody.1, afterBody.2)
  | .function name parameters body =>
    let named := Scope.record name true scopes
    ((Stmt.findingsAll true (Scope.ofParameters parameters :: named) body).1, named)
  | .return keyword none => (Findings.ofReturn inFunction keyword, scopes)
  | .return keyword (some e) =>
    (Findings.ofReturn inFunction keyword ++ e.findings scopes, scopes)

def Stmt.findingsAll (inFunction : Bool) (scopes : List Scope) :
    List (Stmt RefId) → Findings × List Scope
  | [] => (.none, scopes)
  | s :: rest =>
    let afterFirst := s.findings inFunction scopes
    let afterRest := Stmt.findingsAll inFunction afterFirst.2 rest
    (afterFirst.1 ++ afterRest.1, afterRest.2)

end

/-- What the walk over a whole program finds. -/
def findingsOf (program : List (Stmt RefId)) : Findings :=
  (Stmt.findingsAll false [] program).1

end Lox
