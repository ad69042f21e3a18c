import Mixfix.Calculator.Cli

namespace Mixfix.Calculator.Cli

def programName : String := "opgram-calc"

def versionText : String := programName ++ " 0.1.0\n"

/-- What an option does when it is given. -/
inductive OptionRole where
  | switch
  | path (name : String)
  | help
  | version
  deriving Repr, DecidableEq

/-- An option: its long and short names, what it does, and its help line. -/
structure OptionSpec where
  long : String
  short : Char
  role : OptionRole
  about : String
  deriving Repr, DecidableEq

/-- An option as usage and errors write it: `--input <INPUT>`, or `--render`. -/
def OptionSpec.display (o : OptionSpec) : String :=
  match o.role with
  | .path v => "--" ++ o.long ++ " <" ++ v ++ ">"
  | _ => "--" ++ o.long

/-- Whether the usage counts an option under `[OPTIONS]`: help and version do not count. -/
def OptionSpec.counted (o : OptionSpec) : Bool :=
  match o.role with
  | .help | .version => false
  | _ => true

def defsOption : OptionSpec := ⟨"defs", 'd', .path "DEFS", "Input file with operator definitions"⟩

def inputOption : OptionSpec := ⟨"input", 'i', .path "INPUT", "Input file with expressions"⟩

def renderOption : OptionSpec := ⟨"render", 'r', .switch, "Print each tree back as source text"⟩

def helpOption : OptionSpec := ⟨"help", 'h', .help, "Print help"⟩

def versionOption : OptionSpec := ⟨"version", 'V', .version, "Print version"⟩

/-- A subcommand of the program. -/
inductive Subcommand where
  | repl
  | parse
  | tokens
  deriving Repr, DecidableEq

/-- A command the line can name: the program, one of its subcommands, or `help`. -/
inductive Scope where
  | program
  | sub (s : Subcommand)
  | help
  deriving Repr, DecidableEq

namespace Scope

def name : Scope → String
  | .program => ""
  | .sub .repl => "repl"
  | .sub .parse => "parse"
  | .sub .tokens => "tokens"
  | .help => "help"

def about : Scope → String
  | .program => "Reference operator table and command-line driver for opgram"
  | .sub .repl => "Reads expressions from standard input, one per line"
  | .sub .parse => "Parses every non-empty line of a file"
  | .sub .tokens => "Prints the tokens of a file"
  | .help => "Print this message or the help of the given subcommand(s)"

/-- The options of a command, in the order they are declared, help and version last. -/
def options : Scope → List OptionSpec
  | .program => [helpOption, versionOption]
  | .sub .repl => [defsOption, helpOption]
  | .sub .parse => [defsOption, inputOption, renderOption, helpOption]
  | .sub .tokens => [defsOption, inputOption, helpOption]
  | .help => []

def required : Scope → List OptionSpec
  | .sub .parse | .sub .tokens => [inputOption]
  | _ => []

def subscopes : Scope → List Scope
  | .program => [.sub .repl, .sub .parse, .sub .tokens, .help]
  | _ => []

def hasHelpOption (c : Scope) : Bool :=
  c.options.contains helpOption

def command (c : Scope) : String :=
  match c with
  | .program => programName
  | c => programName ++ " " ++ c.name

def commandTail (c : Scope) : String :=
  if c.subscopes.isEmpty then "" else " <COMMAND>"

def fullUsage (c : Scope) : String :=
  match c with
  | .help => c.command ++ " [COMMAND]..."
  | c =>
    c.command ++
      (if c.options.any fun o => o.counted && !c.required.contains o then " [OPTIONS]" else "") ++
      String.join (c.required.map fun o => " " ++ o.display) ++ c.commandTail

/-- The short usage line: the required options, then the options known, each once. -/
def shortUsage (c : Scope) (known : List OptionSpec) : String :=
  let listed := (c.required ++ known).foldl (fun acc o => if acc.contains o then acc else acc ++ [o]) []
  c.command ++ String.join (listed.map fun o => " " ++ o.display) ++ c.commandTail

/-- The options a subcommand declares itself, help apart: they form one group. -/
def ownOptions (c : Scope) : List OptionSpec :=
  match c with
  | .sub _ => c.options.filter OptionSpec.counted
  | _ => []

/-- The group of a subcommand's own options as a usage line writes it: `<--defs <DEFS>|...>`. -/
def groupDisplay (c : Scope) : String :=
  "<" ++ "|".intercalate (c.ownOptions.map OptionSpec.display) ++ ">"

/-- The short usage line once one of the command's own options is known: the required and known
options outside the group, each once, then the group. -/
def groupedUsage (c : Scope) (known : List OptionSpec) : String :=
  let listed := (c.required ++ known).foldl (fun acc o => if acc.contains o then acc else acc ++ [o]) []
  let outside := listed.filter fun o => !c.ownOptions.contains o
  c.command ++ String.join (outside.map fun o => " " ++ o.display) ++ " " ++ c.groupDisplay ++
    c.commandTail

/-- The usage for the options known: the full one when none is known. -/
def usageFor (c : Scope) (known : List OptionSpec) : String :=
  if known.isEmpty then c.fullUsage else c.shortUsage known

end Scope

def padRight (s : String) (width : Nat) : String :=
  s ++ String.ofList (List.replicate (width - s.length) ' ')

def table (rows : List (String × String)) : String :=
  let width := (rows.map (·.1.length)).foldl max 0
  String.join (rows.map fun (l, r) => "  " ++ padRight l width ++ "  " ++ r ++ "\n")

def OptionSpec.row (o : OptionSpec) : String × String :=
  ("-" ++ String.singleton o.short ++ ", --" ++ o.long ++
    (match o.role with | .path v => " <" ++ v ++ ">" | _ => ""), o.about)

def Scope.helpText (c : Scope) : String :=
  match c with
  | .help =>
    c.about ++ "\n\nUsage: " ++ c.fullUsage ++
      "\n\nArguments:\n  [COMMAND]...  Print help for the subcommand(s)\n"
  | .program =>
    c.about ++ "\n\nUsage: " ++ c.fullUsage ++ "\n\nCommands:\n" ++
      table (c.subscopes.map fun s => (s.name, s.about)) ++
      "\nOptions:\n" ++ table (c.options.map OptionSpec.row)
  | c =>
    c.about ++ "\n\nUsage: " ++ c.fullUsage ++ "\n\nOptions:\n" ++ table (c.options.map OptionSpec.row)

def printed (text : String) : Outcome :=
  ⟨0, text, ""⟩

/-- A refusal of the command line: its fault, its tips, the usage to show if any, and whether the
command has a help option to point to. -/
structure Refusal where
  fault : String
  tips : List String := []
  usage : Option String := none
  pointsToHelp : Bool := true

def Refusal.text (r : Refusal) : String :=
  "error: " ++ r.fault ++
    (if r.tips.isEmpty then "" else "\n" ++ String.join (r.tips.map ("\n  tip: " ++ ·))) ++
    (match r.usage with | some u => "\n\nUsage: " ++ u | none => "") ++
    (if r.pointsToHelp then "\n\nFor more information, try '--help'.\n" else "\n")

/-- The outcome of a refusal: status two and its text on the error output. -/
def Refusal.outcome (r : Refusal) : Outcome :=
  ⟨2, "", r.text⟩

def unexpectedArgument (arg : String) (tips : List String) (usage : String) : Refusal :=
  { fault := "unexpected argument '" ++ arg ++ "' found", tips, usage := some usage }

def unexpectedValue (value : String) (o : OptionSpec) (usage : String) : Refusal :=
  { fault := "unexpected value '" ++ value ++ "' for '" ++ o.display ++
      "' found; no more were expected", usage := some usage }

def emptyValue (o : OptionSpec) : Refusal :=
  { fault := "a value is required for '" ++ o.display ++ "' but none was supplied" }

def givenTwice (o : OptionSpec) (usage : String) : Refusal :=
  { fault := "the argument '" ++ o.display ++ "' cannot be used multiple times", usage := some usage }

def missingOptions (missing : List OptionSpec) (usage : String) : Refusal :=
  { fault := "the following required arguments were not provided:" ++
      String.join (missing.map fun o => "\n  " ++ o.display), usage := some usage }

def unrecognizedCommand (word : String) (tips : List String) (usage : String) (pointsToHelp : Bool) :
    Refusal :=
  { fault := "unrecognized subcommand '" ++ word ++ "'", tips, usage := some usage, pointsToHelp }

def similarCommands : List String → List String
  | [] => []
  | [c] => ["a similar subcommand exists: '" ++ c ++ "'"]
  | cs => ["some similar subcommands exist: " ++ ", ".intercalate (cs.map fun c => "'" ++ c ++ "'")]

end Mixfix.Calculator.Cli
