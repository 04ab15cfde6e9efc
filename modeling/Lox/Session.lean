import Lox.Evaluation
import Lox.Fault
import Lox.Grammar.Statement

/-!
Sessions. A session runs one source after another on the same machine, so that globals, functions
and the distances of their references live on. A source with a static fault does not run at all.
-/

namespace Lox

/-- What can be said about a source without running it. -/
structure Analysis where
  program : List (Stmt RefId)
  /-- The faults of its text: lexical ones first, then those of the grammar. -/
  textFaults : List Fault
  findings : Findings
  /-- The first identity that no reference of the program has. -/
  next : RefId

namespace Analysis

/-- Reads and scopes a source whose references are identified from `next` on. Scoping covers what
    could be read even if there were syntax errors. -/
def ofSource (next : RefId) (source : String) : Analysis :=
  let read := Tokens.ofString source
  let parsed := Grammar.program read.tokens
  let numbered := Stmt.numberAll next parsed.statements
  { program := numbered.1
    textFaults := read.errors.map .lexical ++ parsed.errors.map .grammatical
    findings := findingsOf numbered.1
    next := numbered.2 }

/-- All static faults. -/
def faults (a : Analysis) : List Fault :=
  a.textFaults ++ a.findings.errors.map .scoping

end Analysis

/-- The expression that a source consists of, and the static faults. There can be both. -/
structure SoleExpression where
  tree : Option (Expr Unit)
  faults : List Fault

def SoleExpression.ofSource (source : String) : SoleExpression :=
  let read := Tokens.ofString source
  let reply := Grammar.wholeExpression read.tokens
  ⟨reply.result, read.errors.map .lexical ++ reply.errors.map .grammatical⟩

/-- The tree of a source without faults. -/
def SoleExpression.accepted? (e : SoleExpression) : Option (Expr Unit) :=
  if e.faults.isEmpty then e.tree else none

/-- The value of an expression on a machine of its own, where every name is global. There is no
    answer if `fuel` was too little. -/
def evaluateAlone? (fuel : Nat) (reading : Nat → Float) (e : Expr Unit) :
    Option (Except RuntimeError Value) :=
  match evaluate fuel (e.number 0).1 (.start reading) with
  | .ok value _ => some (.ok value)
  | .error (.error e) _ => some (.error e)
  | .error .outOfFuel _ => none

inductive Outcome
  | success
  | staticFaults (faults : List Fault)
  | runtimeError (e : RuntimeError)

/-- The exit code after static faults. -/
def exitStatic : Nat := 65

/-- The exit code after a run-time error. -/
def exitRuntime : Nat := 70

namespace Outcome

def exitCode : Outcome → Nat
  | success => 0
  | staticFaults _ => exitStatic
  | runtimeError _ => exitRuntime

def faults : Outcome → List Fault
  | success => []
  | staticFaults faults => faults
  | runtimeError e => [.runtime e]

end Outcome

/-- The answer to one source: how it ended and what it printed. -/
structure Answer where
  outcome : Outcome
  output : String

structure Session where
  machine : Machine
  next : RefId
  sawRuntimeError : Bool

namespace Session

def start (reading : Nat → Float) : Session :=
  ⟨.start reading, 0, false⟩

/-- The same session with other readings from now on. -/
def withReadings (s : Session) (reading : Nat → Float) : Session :=
  { s with machine := { s.machine with clock := { s.machine.clock with reading } } }

/-- Runs one source. There is no answer if `fuel` was too little. -/
def run? (fuel : Nat) (s : Session) (source : String) : Option (Answer × Session) :=
  let analysis := Analysis.ofSource s.next source
  let s := { s with next := analysis.next }
  if analysis.faults.isEmpty then
    let machine := { s.machine with output := "" }
    match runProgram fuel analysis.program (machine.learn analysis.findings) with
    | .ok _ machine => some (⟨.success, machine.output⟩, { s with machine })
    | .error (.error e) machine =>
      some (⟨.runtimeError e, machine.output⟩, { s with machine, sawRuntimeError := true })
    | .error .outOfFuel _ => none
  else
    some (⟨.staticFaults analysis.faults, ""⟩, s)

end Session

end Lox
