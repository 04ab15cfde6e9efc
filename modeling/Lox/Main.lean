import Lox.Command

/-!
The program. It reads files and lines, hands them to the commands and writes their transcripts.
-/

namespace Lox.Program

/-- Hands more and more fuel to a run until it is enough. -/
partial def enough {α : Type} (run : Nat → Option α) (fuel : Nat) : IO α :=
  match run fuel with
  | some a => pure a
  | none => enough run (2 * fuel)

def fuel : Nat := Nat.pow 2 40

def write (t : Transcript) : IO Unit := do
  let out ← IO.getStdout
  out.putStr t.stdout
  out.flush
  IO.eprint t.stderr

/-- The bytes of one line with its line break. -/
partial def readLine (input : IO.FS.Stream) (line : ByteArray) : IO (List UInt8) := do
  let byte ← input.read 1
  let line := line ++ byte
  if byte.isEmpty || byte[0]? == some 10 then return line.toList
  readLine input line

def secondsSince (start : Nat) : IO Float := do
  return (← IO.monoNanosNow).toFloat / 1000000000 - start.toFloat / 1000000000

/-- Answers every line before it asks for the next one. -/
partial def prompt (start : Nat) (s : Session) : IO Nat := do
  write ⟨0, Prompt.sign, ""⟩
  let line ← readLine (← IO.getStdin) ByteArray.empty
  if line.isEmpty then return Prompt.exitCode s
  let s := s.withReadings (Clock.ticking (← secondsSince start))
  let (t, next) ← enough (Prompt.turn? · s line) fuel
  write t
  match next with
  | some s => prompt start s
  | none => return t.exitCode

def readFile (name : String) : IO SourceFile := do
  try
    return ⟨name, .ok (← IO.FS.readBinFile name).toList⟩
  catch
    | .noFileOrDirectory .. => return .missing name
    | e => return ⟨name, .error e.toString⟩

def usage : String :=
  "usage: lox tokenize [--json] FILE | parse FILE | evaluate FILE | run [FILE]\n"

/-- A command has at most one file. -/
def withFile? (command : Command) : List String → Option (Command × Option String)
  | [] => some (command, none)
  | [name] => some (command, some name)
  | _ => none

/-- The command that the arguments name, and its file. -/
def parseArguments? (arguments : List String) : Option (Command × Option String) :=
  let json := arguments.contains "--json"
  match arguments.filter (· ≠ "--json"), json with
  | "tokenize" :: rest, _ => withFile? (.tokenize json) rest
  | "parse" :: rest, false => withFile? .parse rest
  | "evaluate" :: rest, false => withFile? .evaluate rest
  | "run" :: rest, false => withFile? .run rest
  | _, _ => none

end Lox.Program

open Lox Program in
def main (arguments : List String) : IO UInt32 := do
  let start ← IO.monoNanosNow
  let reading := Clock.ticking 0
  match parseArguments? arguments with
  | none =>
    IO.eprint usage
    return 2
  | some (.run, none) => return (← prompt start (.start reading)).toUInt32
  | some (command, name) =>
    let file ← name.mapM fun name => readFile name
    let t ← enough (command.execute? · reading file []) fuel
    write t
    return t.exitCode.toUInt32
