import Lox.Main
import Lox.Proofs.Grammar.Program
import Lox.Proofs.Scoping.Alike
import Lox.Proofs.Scoping.Table
import Lox.Proofs.Execution.Simulation
import Lox.Proofs.Grammar.Relocation
import Lox.Proofs.Session.Variables
import Lox.Proofs.Token.Acceptance
import Lox.Proofs.Session.Joining
import Lox.Proofs.Execution.Calls
import Lox.Proofs.Session.Restoration
import Lox.Proofs.Grammar.Interruption
import Lox.Proofs.Session.Gate
import Lox.Proofs.Session.Respelling
import Lox.Proofs.Session.Returning
import Lox.Proofs.Session.Independence
import Lox.Proofs.Token.Scanning
import Lox.Proofs.Session.Identities
import Lox.Proofs.Session.Termination
import Lox.Proofs.Scoping.Visibility
import Lox.Proofs.Scoping.Diagnostics
import Lox.Proofs.Grammar.Totality
import Lox.Proofs.Session.Binding
import Lox.Proofs.Session.Printing
import Lox.Proofs.Session.Enclosing
import Lox.Proofs.Session.ForLoop
import Lox.Proofs.Token.Line
import Lox.Proofs.Token.LineBreak
import Lox.Proofs.Token.Spacing
import Lox.Proofs.Grammar.Continuation
import Lox.Proofs.Session.Prompt
import Lox.Proofs.Grammar.Printing
import Lox.Proofs.Execution.Building
import Lox.Proofs.Execution.Chain
