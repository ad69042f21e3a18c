namespace Mixfix

/-- How the operators of one level group: from the left (also postfix operators) or from the right
(also prefix operators). -/
inductive Assoc where
  | left
  | right
  deriving Repr, DecidableEq

/-- Whether an operator attaches to one operand beside its pattern. -/
inductive Kind where
  | chain
  | value
  deriving Repr, DecidableEq

/-- One element of a pattern: a sign, or a hole whose optional limit names the loosest level
whose operators may stand in it without brackets. -/
inductive Slot where
  | sign (text : String)
  | hole (limit : Option String)
  deriving Repr, DecidableEq

/-- Identifiers of operators. Each has a name, as trees are written, and a label, as messages
call it; a name reads back as at most one identifier. -/
class OperatorId (ι : Type) where
  name : ι → String
  label : ι → String
  ofName? : String → Option ι

/-- An operator as written: its identifier, kind and pattern. -/
structure Operator (ι : Type) where
  id : ι
  kind : Kind
  pattern : List Slot
  deriving Repr, DecidableEq

/-- A level: its name, its associativity and its operators in order. -/
structure Level (ι : Type) where
  name : String
  assoc : Assoc
  operators : List (Operator ι)
  deriving Repr, DecidableEq

/-- A word that names no associativity, no kind or no operator. -/
inductive NameError where
  | assoc (text : String)
  | kind (text : String)
  | operator (text : String)
  deriving Repr, DecidableEq

namespace Assoc

def name : Assoc → String
  | .left => "left"
  | .right => "right"

def ofName (s : String) : Except NameError Assoc :=
  if s = "left" then .ok .left
  else if s = "right" then .ok .right
  else .error (.assoc s)

end Assoc

namespace Kind

def name : Kind → String
  | .chain => "chain"
  | .value => "value"

def ofName (s : String) : Except NameError Kind :=
  if s = "chain" then .ok .chain
  else if s = "value" then .ok .value
  else .error (.kind s)

end Kind

namespace Slot

def sign? : Slot → Option String
  | .sign s => some s
  | .hole _ => none

def isHole : Slot → Bool
  | .sign _ => false
  | .hole _ => true

end Slot

def OperatorId.read {ι : Type} [OperatorId ι] (s : String) : Except NameError ι :=
  match OperatorId.ofName? s with
  | some id => .ok id
  | none => .error (.operator s)

def NameError.message : NameError → String
  | .assoc s => "invalid associativity: " ++ s
  | .kind s => "invalid operator kind: " ++ s
  | .operator s => "invalid operator: " ++ s

end Mixfix
