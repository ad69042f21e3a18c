import Mixfix.Calculator.Session
import Mixfix.Text.Blank
import Mixfix.Text.Lines

namespace Mixfix.Calculator.Cli

/-- A command of the calculator with its options. -/
inductive Command where
  | repl (defs : Option String)
  | parse (defs : Option String) (input : String) (render : Bool)
  | tokens (defs : Option String) (input : String)
  deriving Repr, DecidableEq

/-- What a run prints, and its exit status. -/
structure Outcome where
  status : Nat
  stdout : String
  stderr : String
  deriving Repr, DecidableEq

/-- The files a run may read, by name. -/
abbrev Files := String → Except IoError String

/-- Where a path leads while it is followed: the working directory, the root, the device
directory, another directory, whose entries are unknown, or a file with its text. -/
inductive Place where
  | home
  | root
  | devices
  | elsewhere
  | file (text : String)

/-- Follows one part of a path from a place. A part after a file fails, as no file holds
entries; an empty part, from a doubled or a final slash, and `.` stay where they are; `..` leads
to the parent, the root being its own parent. The working directory holds the named texts; the
root holds the device directory `dev`, where `null` is the empty file, and `tmp`. -/
def Place.step (entries : List (String × String)) : Place → String → Except IoError Place
  | .file _, _ => .error .notDirectory
  | p, "" => .ok p
  | p, "." => .ok p
  | .root, ".." => .ok .root
  | .devices, ".." => .ok .root
  | _, ".." => .ok .elsewhere
  | .home, name =>
    match entries.lookup name with
    | some text => .ok (.file text)
    | none => .error .notFound
  | .root, "dev" => .ok .devices
  | .root, "tmp" => .ok .elsewhere
  | .devices, "null" => .ok (.file "")
  | _, _ => .error .notFound

/-- The files seen from a working directory holding the named texts. A path is followed part by
part, from the root for a path that begins with a slash; a path that ends at a directory cannot
be read as a file. -/
def Files.ofDirectory (entries : List (String × String)) : Files := fun path =>
  if path.isEmpty then .error .notFound
  else
    let start := if path.startsWith "/" then Place.root else Place.home
    match (path.splitOn "/").foldlM (Place.step entries) start with
    | .ok (.file text) => .ok text
    | .ok _ => .error .isDirectory
    | .error e => .error e

/-- The report of a failure: its message, then its causes, numbered when there are several. -/
def report (message : String) (causes : List String) : String :=
  let body := match causes with
    | [] => ""
    | [c] => "\n\nCaused by:\n    " ++ c ++ "\n"
    | cs => "\n\nCaused by:\n" ++
        String.join (cs.zipIdx.map fun (c, i) => "    " ++ toString i ++ ": " ++ c ++ "\n")
  "Error: " ++ message ++ (if causes.isEmpty then "\n" else body)

def failed (stdout report : String) : Outcome :=
  ⟨1, stdout, report⟩

/-- The table of a run: the standard one, or the one defined in file `defs`. -/
def openTable (files : Files) : Option String → Except String (Table Op)
  | none => .ok standard
  | some path =>
    match files path with
    | .error e => .error (report ("can't load " ++ path) (Error.io e).causes)
    | .ok text =>
      match tableOfDefinitions text with
      | .ok t => .ok t
      | .error e => .error (report ("can't load " ++ path) e.causes)

def readInput (files : Files) (path : String) : Except String String :=
  match files path with
  | .error e => .error (report ("can't open " ++ path) [e.message])
  | .ok text => .ok text

/-- The answer to one line: its tree and, if asked, its source text, or its error. A tree that
cannot be printed ends the run. -/
def answer (s : Session) (line : String) (render : Bool) : Except String String × Session :=
  match s.parse line with
  | (.error e, s) => (.ok ("error: " ++ e.message ++ "\n"), s)
  | (.ok tree, s) =>
    if render then
      match s.render tree with
      | .ok text => (.ok (tree.sexpr ++ "\n  " ++ text ++ "\n"), s)
      | .error e =>
        (.error (report ("invalid operator table: " ++ e.message) [e.message]), s)
    else (.ok (tree.sexpr ++ "\n"), s)

/-- Answers lines in turn, stopping at the first that ends the run. -/
def answerAll (render : Bool) : Session → List String → String → Outcome
  | _, [], out => ⟨0, out, ""⟩
  | s, line :: rest, out =>
    match answer s line render with
    | (.ok text, s) => answerAll render s rest (out ++ text)
    | (.error r, _) => failed out r

/-- The answers of an interactive session: a prompt before each line read, until the input ends
or a line is `exit`. -/
def converse : Session → List String → String → Outcome
  | _, [], out => ⟨0, out ++ "> ", ""⟩
  | s, line :: rest, out =>
    let line := Text.trim line
    if line = "exit" then ⟨0, out ++ "> ", ""⟩
    else if line.isEmpty then converse s rest (out ++ "> ")
    else
      match answer s line true with
      | (.ok text, s) => converse s rest (out ++ "> " ++ text)
      | (.error r, _) => failed (out ++ "> ") r

def tokenLine (t : Token) : String :=
  let sp := t.span
  let what := match t.value with
    | .sign s => "sign " ++ s
    | .number x => "number " ++ Decimal.display x
    | .ident s => "ident " ++ s
  toString sp.start.line ++ ":" ++ toString sp.start.column ++ "-" ++ toString sp.stop.line ++
    ":" ++ toString sp.stop.column ++ "\t" ++ what ++ "\n"

def Command.run (files : Files) (stdin : String) : Command → Outcome
  | .repl defs =>
    match openTable files defs with
    | .error r => failed "" r
    | .ok t => converse (Session.ofTable t) (Text.String.lines stdin) ""
  | .parse defs input render =>
    match openTable files defs, readInput files input with
    | .error r, _ => failed "" r
    | .ok _, .error r => failed "" r
    | .ok t, .ok text =>
      let lines := (Text.String.lines text).filter fun l => !(Text.trim l).isEmpty
      answerAll render (Session.ofTable t) lines ""
  | .tokens defs input =>
    match openTable files defs, readInput files input with
    | .error r, _ => failed "" r
    | .ok _, .error r => failed "" r
    | .ok t, .ok text =>
      match (Session.ofTable t).tokens text with
      | .error e => failed "" (report e.message [])
      | .ok ts => ⟨0, String.join (ts.map tokenLine), ""⟩

end Mixfix.Calculator.Cli
