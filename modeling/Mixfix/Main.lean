import Mixfix.Calculator.Arguments

namespace Mixfix.Calculator.Program

open Cli

def ioErrorOf (e : IO.Error) : IoError :=
  match e with
  | .noFileOrDirectory .. => .notFound
  | .inappropriateType _ 20 _ => .notDirectory
  | .otherError 20 _ => .notDirectory
  | .inappropriateType _ 21 _ => .isDirectory
  | .otherError 21 _ => .isDirectory
  | e => .other (toString e)

def readNamed (path : String) : IO (String × Except IoError String) := do
  try
    return (path, .ok (← IO.FS.readFile path))
  catch e =>
    return (path, .error (ioErrorOf e))

def filesOf (cmd : Command) : IO Files := do
  let names := match cmd with
    | .repl defs => defs.toList
    | .parse defs input _ => defs.toList ++ [input]
    | .tokens defs input => defs.toList ++ [input]
  let read ← names.mapM readNamed
  return fun name => (read.lookup name).getD (.error .notFound)

def emit (out : Outcome) : IO UInt32 := do
  IO.print out.stdout
  IO.eprint out.stderr
  (← IO.getStdout).flush
  return out.status.toUInt32

/-- The interactive session: a prompt, a line, an answer, until the input ends or says `exit`. -/
partial def converseLive (s : Session) : IO UInt32 := do
  let stdout ← IO.getStdout
  stdout.putStr "> "
  stdout.flush
  let line ← (← IO.getStdin).getLine
  if line.isEmpty then return 0
  let line := Text.trim line
  if line = "exit" then return 0
  if line.isEmpty then return (← converseLive s)
  match answer s line true with
  | (.ok text, s) =>
    stdout.putStr text
    converseLive s
  | (.error r, _) =>
    IO.eprint r
    return 1

end Mixfix.Calculator.Program

open Mixfix.Calculator Mixfix.Calculator.Cli Mixfix.Calculator.Program in
def main (args : List String) : IO UInt32 := do
  match Command.ofArgs args with
  | .error refusal => emit refusal
  | .ok cmd =>
    let files ← filesOf cmd
    match cmd with
    | .repl defs =>
      match openTable files defs with
      | .error r => emit (failed "" r)
      | .ok t => converseLive (Session.ofTable t)
    | cmd => emit (cmd.run files "")
