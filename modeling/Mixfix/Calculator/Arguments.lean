import Mixfix.Calculator.Usage
import Mixfix.Text.Jaro

namespace Mixfix.Calculator.Cli

open Text

/-- An option waiting for its value: the value once read. -/
structure Awaited where
  option : OptionSpec
  value : Option String

/-- What has been read of a command's arguments: the options given, in the order first given,
with their values; the option whose value is still to settle; and whether `--` was passed. -/
structure Reading where
  given : List (OptionSpec × Option String) := []
  awaited : Option Awaited := none
  escaped : Bool := false

namespace Reading

def known (r : Reading) : List OptionSpec :=
  r.given.map (·.1)

/-- Takes an option with its value. A second use of the option forgets the first and is refused;
an empty value is refused, after the option is taken. -/
def take (c : Scope) (r : Reading) (o : OptionSpec) (value : Option String) :
    Reading × Option Refusal :=
  if r.known.contains o then
    ({ r with given := r.given.filter (·.1 != o) }, some (givenTwice o c.fullUsage))
  else
    let r := { r with given := r.given ++ [(o, value)] }
    if value == some "" then (r, some (emptyValue o)) else (r, none)

def settle (c : Scope) (r : Reading) : Reading × Option Refusal :=
  match r.awaited with
  | none => (r, none)
  | some a =>
    let r := { r with awaited := none }
    match a.value with
    | none => (r, some (emptyValue a.option))
    | some v => r.take c a.option (some v)

/-- Settles the option waiting for its value, refusing the line if that fails. -/
def settled (c : Scope) (r : Reading) : Except Outcome Reading :=
  match r.settle c with
  | (r, none) => .ok r
  | (_, some e) => .error e.outcome

/-- Acts on an option given with its value if it takes one: help and version print, and other
options are taken. -/
def act (c : Scope) (r : Reading) (o : OptionSpec) (value : Option String) :
    Except Outcome Reading := do
  let r ← r.settled c
  match o.role with
  | .help => throw (printed c.helpText)
  | .version => throw (printed versionText)
  | _ =>
    match r.take c o value with
    | (r, none) => pure r
    | (_, some e) => throw e.outcome

def await (c : Scope) (r : Reading) (o : OptionSpec) : Except Outcome Reading := do
  let r ← r.settled c
  pure { r with awaited := some ⟨o, none⟩ }

/-- The tip for an unknown long option of a command: the most alike option of the command, or
else the most alike option of the first of its subcommands named later on the line. -/
def tipFor (c : Scope) (name : String) (later : List String) : Option (String × Option Scope) :=
  match mostSimilar name (c.options.map (·.long)) with
  | some s => some (s, none)
  | none =>
    let found := c.subscopes.filterMap fun sub => do
      let s ← mostSimilar name (sub.options.map (·.long))
      let at_ ← later.idxOf? sub.name
      pure (at_, s, sub)
    (found.foldl (fun best f =>
      match best with
      | some b => if f.1 < b.1 then some f else best
      | none => some f) none).map fun (_, s, sub) => (s, some sub)

/-- Refuses an unknown long option, with its tip. The option of the tip counts as known for the
usage. -/
def refuseLong (c : Scope) (r : Reading) (name : String) (later : List String) : Outcome :=
  let r := (r.settle c).1
  let tip := tipFor c name later
  let r := match tip.bind fun (s, _) => c.options.find? (·.long == s) with
    | some o => if r.known.contains o then r else { r with given := r.given ++ [(o, none)] }
    | none => r
  let tips := match tip with
    | some (s, none) => ["a similar argument exists: '--" ++ s ++ "'"]
    | some (s, some sub) => ["'" ++ sub.name ++ " --" ++ s ++ "' exists"]
    | none => []
  (unexpectedArgument ("--" ++ name) tips (c.usageFor r.known)).outcome

/-- Reads a long option, `--name` or `--name=value`; `later` are the arguments after it. -/
def readLong (c : Scope) (r : Reading) (name : String) (value : Option String)
    (later : List String) : Except Outcome Reading :=
  match c.options.find? (·.long == name) with
  | none => .error (refuseLong c r name later)
  | some o =>
    match o.role, value with
    | .path _, some v => r.act c o (some v)
    | .path _, none => r.await c o
    | _, some v =>
      let known := (r.known.filter fun g => !c.required.contains g) ++ [o]
      let usage := if r.known.any c.ownOptions.contains then c.groupedUsage known
        else c.usageFor known
      .error (unexpectedValue v o usage).outcome
    | _, none => r.act c o none

/-- Reads a cluster of short options. A path option takes the rest of the cluster as its value,
after an optional `=`, or else waits for the next argument. -/
def readShorts (c : Scope) (r : Reading) : List Char → Except Outcome Reading
  | [] => .ok r
  | ch :: more =>
    match c.options.find? (·.short == ch) with
    | none => .error (unexpectedArgument ("-" ++ String.singleton ch) [] c.fullUsage).outcome
    | some o =>
      match o.role with
      | .path _ =>
        match more with
        | [] => r.await c o
        | '=' :: v => r.act c o (some (String.ofList v))
        | v => r.act c o (some (String.ofList v))
      | _ => do readShorts c (← r.act c o none) more

end Reading

/-- A long option split into its name and the value after `=`, if any. -/
def splitLong (body : String) : String × Option String :=
  let cs := body.toList
  match cs.dropWhile (· ≠ '=') with
  | _ :: v => (String.ofList (cs.takeWhile (· ≠ '=')), some (String.ofList v))
  | [] => (body, none)

/-- How an argument reads: `--`, a long option, a cluster of short options, or a word. -/
inductive ArgForm where
  | escape
  | long (name : String) (value : Option String)
  | shorts (chars : List Char)
  | word (text : String)

def ArgForm.ofArg (arg : String) : ArgForm :=
  if arg = "--" then .escape
  else if arg.startsWith "--" then
    let (name, value) := splitLong (String.ofList (arg.toList.drop 2))
    .long name value
  else if arg.startsWith "-" && arg.length > 1 then .shorts (arg.toList.drop 1)
  else .word arg

def readSubcommand (c : Scope) : Reading → List String → Except Outcome Reading
  | r, [] => r.settled c
  | r, arg :: later =>
    let stray := Except.error (unexpectedArgument arg [] c.fullUsage).outcome
    if r.escaped then stray
    else
      match ArgForm.ofArg arg with
      | .escape => readSubcommand c { r with escaped := true } later
      | .long name value => do readSubcommand c (← r.readLong c name value later) later
      | .shorts chars => do readSubcommand c (← r.readShorts c chars) later
      | .word w =>
        match r.awaited with
        | some ⟨o, none⟩ => readSubcommand c { r with awaited := some ⟨o, some w⟩ } later
        | _ => stray

def valueOf (r : Reading) (o : OptionSpec) : Option String :=
  (r.given.find? (·.1 == o)).bind (·.2)

/-- The command a subcommand and its options stand for, once its required options are there. -/
def commandOf (s : Subcommand) (r : Reading) : Except Outcome Command :=
  let c := Scope.sub s
  let missing := c.required.filter fun o => !r.known.contains o
  if !missing.isEmpty then
    .error (missingOptions missing (c.shortUsage (r.known ++ missing))).outcome
  else
    let defs := valueOf r defsOption
    match s, valueOf r inputOption with
    | .repl, _ => .ok (.repl defs)
    | .parse, some input => .ok (.parse defs input (r.known.contains renderOption))
    | .tokens, some input => .ok (.tokens defs input)
    | _, none => .error (missingOptions [inputOption] (c.shortUsage r.known)).outcome

/-- `help` followed by names: the help of the command they name, one below the other. -/
def helpFor : Scope → List String → Outcome
  | c, [] => printed c.helpText
  | c, name :: more =>
    match c.subscopes.find? (·.name == name) with
    | some sub => helpFor sub more
    | none => (unrecognizedCommand name [] c.fullUsage c.hasHelpOption).outcome

def strayCommand (word : String) (escaped : Bool) : Outcome :=
  let c := Scope.program
  if escaped && (c.subscopes.map Scope.name).contains word then
    (unexpectedArgument word
      ["subcommand '" ++ word ++ "' exists; to use it, remove the '--' before it"]
      c.fullUsage).outcome
  else
    (unrecognizedCommand word (similarCommands (similar word (c.subscopes.map Scope.name)))
      c.fullUsage true).outcome

/-- Reads the program's arguments up to its subcommand, then the subcommand's. -/
def readProgram : Reading → List String → Except Outcome Command
  | _, [] => .error ⟨2, "", Scope.program.helpText⟩
  | r, arg :: later =>
    let c := Scope.program
    if r.escaped then .error (strayCommand arg true)
    else
      match ArgForm.ofArg arg with
      | .escape => readProgram { r with escaped := true } later
      | .long name value => do readProgram (← r.readLong c name value later) later
      | .shorts chars => do readProgram (← r.readShorts c chars) later
      | .word w =>
        match c.subscopes.find? (·.name == w) with
        | some .help => .error (helpFor c later)
        | some (.sub s) => do commandOf s (← readSubcommand (.sub s) {} later)
        | _ => .error (strayCommand w false)

def Command.ofArgs (args : List String) : Except Outcome Command :=
  readProgram {} args

def run (args : List String) (files : Files) (stdin : String) : Outcome :=
  match Command.ofArgs args with
  | .error refusal => refusal
  | .ok cmd => cmd.run files stdin

end Mixfix.Calculator.Cli
