import Lox.Session
import Lox.Syntax.Text
import Lox.Text.Json

/-!
The command line. A command answers with a transcript, a function of its file and its input; only
reading and writing them is left to the program itself. The prompt runs the lines of its input in
one session.
-/

namespace Lox

structure Transcript where
  exitCode : Nat
  stdout : String
  stderr : String
deriving DecidableEq

inductive Command
  | tokenize (json : Bool)
  | parse
  | evaluate
  | run
deriving DecidableEq

/-- A file that a command is given, by its name and its bytes, or the reason why it has none. -/
structure SourceFile where
  name : String
  contents : Except String (List UInt8)

def SourceFile.missing (name : String) : SourceFile :=
  ⟨name, .error "No such file or directory (os error 2)"⟩

def SourceFile.read (f : SourceFile) : Except Fault String :=
  match f.contents with
  | .error reason => .error (.unreadableFile reason)
  | .ok bytes => (Text.Utf8.decode bytes).mapError .malformedText

/-- One line for each text. -/
def lines (texts : List String) : String :=
  String.join (texts.map (· ++ "\n"))

def faultLines (faults : List Fault) : String :=
  lines (faults.map Fault.message)

namespace Command

def ofTokens (json : Bool) (source : String) : Transcript :=
  let items := readItems source
  let line (t : Token) := if json then Text.Json.token t else t.text
  let read := Tokens.ofItems items
  { exitCode := if read.errors.isEmpty then 0 else exitStatic
    stdout := lines (read.tokens.map line)
    stderr := faultLines (read.errors.map .lexical) }

def ofTree (source : String) : Transcript :=
  let read := SoleExpression.ofSource source
  match read.accepted? with
  | some e => ⟨0, lines [e.text], ""⟩
  | none => ⟨exitStatic, "", faultLines read.faults⟩

def ofValue? (fuel : Nat) (reading : Nat → Float) (source : String) : Option Transcript :=
  let read := SoleExpression.ofSource source
  match read.accepted? with
  | none => some ⟨exitStatic, "", faultLines read.faults⟩
  | some e =>
    (evaluateAlone? fuel reading e).map fun
      | .ok value => ⟨0, lines [value.text], ""⟩
      | .error e => ⟨exitRuntime, "", faultLines [.runtime e]⟩

def ofRun? (fuel : Nat) (reading : Nat → Float) (source : String) : Option Transcript :=
  ((Session.start reading).run? fuel source).map fun (answer, _) =>
    ⟨answer.outcome.exitCode, answer.output, faultLines answer.outcome.faults⟩

end Command

namespace Prompt

def sign : String := "> "

/-- Only a line without any text ends the prompt; a line of blanks runs. -/
def isClosing (line : String) : Bool :=
  line.toList.all fun c => c == '\r' || c == '\n'

/-- Errors that were answered on the way show in the exit code. -/
def exitCode (s : Session) : Nat :=
  if s.sawRuntimeError then exitRuntime else 0

/-- The lines of an input, each with its line break. -/
def splitLines : List UInt8 → List (List UInt8)
  | [] => []
  | b :: bytes =>
    if b = 10 then [b] :: splitLines bytes
    else
      match splitLines bytes with
      | [] => [[b]]
      | line :: rest => (b :: line) :: rest

/-- What one line is answered, and the session for the next line if the prompt stays open. -/
def turn? (fuel : Nat) (s : Session) (bytes : List UInt8) :
    Option (Transcript × Option Session) :=
  match Text.Utf8.decode bytes with
  | .error _ => some (⟨1, "", lines ["Error: stream did not contain valid UTF-8"]⟩, none)
  | .ok line =>
    if isClosing line then some (⟨exitCode s, "", ""⟩, none)
    else
      (s.run? fuel line).map fun (answer, s) =>
        (⟨exitCode s, answer.output, faultLines answer.outcome.faults⟩, some s)

/-- Asks for a line as long as there is one and the prompt stays open. -/
def run? (fuel : Nat) : Session → List (List UInt8) → Option Transcript
  | s, [] => some ⟨exitCode s, sign, ""⟩
  | s, line :: rest => do
    let (first, next) ← turn? fuel s line
    match next with
    | none => return { first with stdout := sign ++ first.stdout }
    | some s =>
      let others ← run? fuel s rest
      return ⟨others.exitCode, sign ++ first.stdout ++ others.stdout, first.stderr ++ others.stderr⟩

end Prompt

namespace Command

/-- A command that needs a file and has none says so and succeeds. -/
def withoutFile : Transcript :=
  ⟨0, lines ["No input filepath was provided. Exiting..."], ""⟩

def unreadable (name : String) (f : Fault) : Transcript :=
  ⟨1, "", lines ["Error: Failed to read file \"" ++ name ++ "\"", "", "Caused by:",
    "    " ++ f.message]⟩

/-- What a command answers. There is no answer if `fuel` was too little. -/
def execute? (fuel : Nat) (reading : Nat → Float) (command : Command) (file : Option SourceFile)
    (stdin : List UInt8) : Option Transcript :=
  match file with
  | none =>
    match command with
    | run => Prompt.run? fuel (.start reading) (Prompt.splitLines stdin)
    | _ => some withoutFile
  | some file =>
    match file.read with
    | .error f => some (unreadable file.name f)
    | .ok source =>
      match command with
      | tokenize json => some (ofTokens json source)
      | parse => some (ofTree source)
      | evaluate => ofValue? fuel reading source
      | run => ofRun? fuel reading source

end Command

end Lox
