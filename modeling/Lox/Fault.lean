import Lox.Token.Reader
import Lox.Grammar.Rule
import Lox.Machine
import Lox.Text.Utf8

/-!
Everything that can go wrong with a program, from its file to its run, and the text in which it is
reported.
-/

namespace Lox

inductive Fault
  | lexical (e : LexicalError)
  | grammatical (e : SyntaxError)
  | scoping (e : ScopeError)
  | runtime (e : RuntimeError)
  | unreadableFile (reason : String)
  | malformedText (m : Text.Utf8.Malformed)

/-- Where a report says that a token stands. -/
def Token.place (t : Token) : String :=
  if t.isEnd then " at end" else " at '" ++ t.lexeme ++ "'"

namespace Fault

def report (line : Nat) (place message : String) : String :=
  "[line " ++ toString line ++ "] Error" ++ place ++ ": " ++ message

def message : Fault → String
  | lexical e => report e.line " " e.problem.message
  | grammatical e => report e.token.line e.token.place e.problem.message
  | scoping e => report e.token.line e.token.place e.problem.message
  | runtime e => e.problem.message ++ "\n [line: " ++ toString e.token.line ++ "]"
  | unreadableFile reason => reason
  | malformedText m => m.message

/-- Static faults are found without running anything, and keep a program from running. -/
def isStatic : Fault → Bool
  | lexical _ | grammatical _ | scoping _ => true
  | runtime _ | unreadableFile _ | malformedText _ => false

end Fault

end Lox
