import Mixfix.Grammar.Operator
import Mixfix.Text.Blank
import Mixfix.Text.Lines
import Mixfix.Text.Quoted

namespace Mixfix

/-- What is wrong with a line of definitions. -/
inductive DefinitionFault where
  | unknownDirective (word : String)
  | malformedLevel
  | invalidAssoc (word : String)
  | noLevel
  | missingId
  | unknownId (word : String)
  | emptyPattern (id : String)
  | emptyLimit
  deriving Repr, DecidableEq

/-- A fault with the number of its line, counted from one. -/
structure DefinitionError where
  line : Nat
  fault : DefinitionFault
  deriving Repr, DecidableEq

def DefinitionFault.message : DefinitionFault → String
  | .unknownDirective w => "unknown directive " ++ Text.quote w
  | .malformedLevel => "`level` needs a name and an associativity"
  | .invalidAssoc w => "invalid associativity " ++ Text.quote w
  | .noLevel => "operator defined before any level"
  | .missingId => "operator needs an id"
  | .unknownId w => "unknown operator id " ++ Text.quote w
  | .emptyPattern id => "operator " ++ Text.quote id ++ " has an empty pattern"
  | .emptyLimit => "hole limit is missing a level name"

def DefinitionError.message (e : DefinitionError) : String :=
  "line " ++ toString e.line ++ ": " ++ e.fault.message

/-- The slot a word stands for; `none` for `_:` with no level name after it. -/
def Slot.ofWord (w : String) : Option Slot :=
  if w = "_" then some (.hole none)
  else match w.toList with
    | '_' :: ':' :: [] => none
    | '_' :: ':' :: rest => some (.hole (some (String.ofList rest)))
    | _ => some (.sign w)

def Slot.ofWords (ws : List String) : Option (List Slot) :=
  ws.mapM Slot.ofWord

namespace Level

variable {ι : Type}

def addToLast (levels : List (Level ι)) (op : Operator ι) : List (Level ι) :=
  match levels.getLast? with
  | none => levels
  | some last => levels.dropLast ++ [{ last with operators := last.operators ++ [op] }]

def readLine [OperatorId ι] (levels : List (Level ι)) (words : List String) :
    Except DefinitionFault (List (Level ι)) :=
  match words with
  | [] => .ok levels
  | directive :: rest =>
    if directive.startsWith "//" then .ok levels
    else if directive = "level" then
      match rest with
      | [name, assoc] =>
        match Assoc.ofName assoc with
        | .ok a => .ok (levels ++ [⟨name, a, []⟩])
        | .error _ => .error (.invalidAssoc assoc)
      | _ => .error .malformedLevel
    else if directive = "chain" ∨ directive = "value" then
      let kind : Kind := if directive = "chain" then .chain else .value
      if levels.isEmpty then .error .noLevel
      else match rest with
        | [] => .error .missingId
        | name :: slots =>
          match OperatorId.ofName? name with
          | none => .error (.unknownId name)
          | some id =>
            match Slot.ofWords slots with
            | none => .error .emptyLimit
            | some [] => .error (.emptyPattern name)
            | some pattern => .ok (addToLast levels ⟨id, kind, pattern⟩)
    else .error (.unknownDirective directive)

/-- Reads table definitions into levels, tightest first; the table is not validated. -/
def readDefinitions [OperatorId ι] (text : String) : Except DefinitionError (List (Level ι)) :=
  (Text.String.lines text).zipIdx.foldlM (fun levels (line, i) =>
    (readLine levels (Text.String.words line)).mapError fun fault => ⟨i + 1, fault⟩) []

end Level

end Mixfix
