import Mixfix.Grammar.Operator
import Mixfix.Text.Blank
import Mixfix.Text.Quoted

namespace Mixfix

/-- What is wrong with a pattern, given its kind and associativity. -/
inductive PatternFault where
  | badSign
  | adjacentHoles
  | valueEdgeHole
  | leftChainLeadingHole
  | rightChainTrailingHole
  deriving Repr, DecidableEq

/-- Why levels do not form a table. -/
inductive TableError (ι : Type) where
  | noSign (id : ι)
  | duplicate (id : ι)
  | invalidPattern (id : ι) (fault : PatternFault)
  | unknownLevel (id : ι) (level : String)
  deriving Repr, DecidableEq

def PatternFault.reason : PatternFault → String
  | .badSign => "a sign must be non-empty and contain no whitespace"
  | .adjacentHoles => "two holes cannot be adjacent"
  | .valueEdgeHole => "a value operator must begin and end with a sign"
  | .leftChainLeadingHole => "a left-associative chain operator cannot begin with a hole"
  | .rightChainTrailingHole => "a right-associative chain operator cannot end with a hole"

def TableError.message {ι : Type} [OperatorId ι] : TableError ι → String
  | .noSign id => "operator " ++ OperatorId.label id ++ " contains no sign"
  | .duplicate id => "operator " ++ OperatorId.label id ++ " is defined more than once"
  | .invalidPattern id fault =>
    "operator " ++ OperatorId.label id ++ " has an invalid pattern: " ++ fault.reason
  | .unknownLevel id level =>
    "operator " ++ OperatorId.label id ++ " refers to unknown level " ++ Text.quote level

/-- An operator of a validated table with the data derived from its level and pattern. -/
structure Entry (ι : Type) where
  operator : Operator ι
  priority : Nat
  assoc : Assoc
  lead : Nat
  firstSign : String
  restEnd : Nat
  arity : Nat
  bound : Option Nat
  deriving Repr, DecidableEq

namespace Entry

variable {ι : Type}

def startsWithExpression (e : Entry ι) : Bool :=
  e.operator.kind == .chain &&
    (e.assoc == .left || (e.operator.pattern.head?.map Slot.isHole).getD false)

def endsWithExpression (e : Entry ι) : Bool :=
  e.operator.kind == .chain &&
    (e.assoc == .right || (e.operator.pattern.getLast?.map Slot.isHole).getD false)

end Entry

def leadSign : List Slot → Option (Nat × String)
  | [] => none
  | .sign s :: _ => some (0, s)
  | .hole _ :: rest => (leadSign rest).map fun p => (p.1 + 1, p.2)

def hasAdjacentHoles : List Slot → Bool
  | a :: b :: rest => (a.isHole && b.isHole) || hasAdjacentHoles (b :: rest)
  | _ => false

def validSign (s : String) : Bool :=
  s ≠ "" && !s.any Text.isBlank

def levelIndex? (names : List String) (name : String) : Option Nat :=
  names.findIdx? (· == name)

def holeLimits : List Slot → List String
  | [] => []
  | .hole (some l) :: rest => l :: holeLimits rest
  | _ :: rest => holeLimits rest

/-- Checks an operator of level `priority` and derives its entry; `names` are the names of all
levels of the table. -/
def Entry.derive {ι : Type} (names : List String) (priority : Nat) (assoc : Assoc)
    (op : Operator ι) : Except (TableError ι) (Entry ι) := do
  let some (lead, first) := leadSign op.pattern | throw (.noSign op.id)
  if op.pattern.any fun slot => (slot.sign?.map fun s => !validSign s).getD false then
    throw (.invalidPattern op.id .badSign)
  if hasAdjacentHoles op.pattern then throw (.invalidPattern op.id .adjacentHoles)
  let startsWithHole := (op.pattern.head?.map Slot.isHole).getD false
  let endsWithHole := (op.pattern.getLast?.map Slot.isHole).getD false
  match op.kind, assoc with
  | .value, _ =>
    if startsWithHole || endsWithHole then throw (.invalidPattern op.id .valueEdgeHole)
  | .chain, .left =>
    if startsWithHole then throw (.invalidPattern op.id .leftChainLeadingHole)
  | .chain, .right =>
    if endsWithHole then throw (.invalidPattern op.id .rightChainTrailingHole)
  if let some l := (holeLimits op.pattern).find? fun l => (levelIndex? names l).isNone then
    throw (.unknownLevel op.id l)
  let holes := op.pattern.countP Slot.isHole
  let entry : Entry ι :=
    { operator := op, priority, assoc, lead, firstSign := first
      restEnd := op.pattern.length - (if endsWithHole then 1 else 0)
      arity := holes + (if op.kind == .chain then 1 else 0)
      bound := none }
  if entry.endsWithExpression then
    let bound := match assoc, op.pattern.getLast? with
      | .right, _ => priority + 1
      | .left, some (.hole (some l)) => ((levelIndex? names l).getD priority) + 1
      | .left, _ => priority
    return { entry with bound := some bound }
  return entry

/-- A validated table: its levels, its entries in table order, and its distinct signs in the
order they first appear. -/
structure Table (ι : Type) where
  levels : List (String × Assoc)
  entries : List (Entry ι)
  signs : List String
  deriving Repr

def addSigns (signs : List String) (pattern : List Slot) : List String :=
  pattern.foldl (fun acc slot =>
    match slot with
    | .sign s => if acc.contains s then acc else acc ++ [s]
    | .hole _ => acc) signs

namespace Table

variable {ι : Type} [DecidableEq ι]

/-- Every operator of the levels with its priority and associativity, in table order. -/
def placed (levels : List (Level ι)) : List (Nat × Assoc × Operator ι) :=
  levels.zipIdx.flatMap fun (level, i) => level.operators.map fun op => (i, level.assoc, op)

def add (names : List String) (t : Table ι) (p : Nat × Assoc × Operator ι) :
    Except (TableError ι) (Table ι) := do
  let (priority, assoc, op) := p
  if t.entries.any (·.operator.id == op.id) then throw (.duplicate op.id)
  let entry ← Entry.derive names priority assoc op
  return { t with entries := t.entries ++ [entry], signs := addSigns t.signs op.pattern }

def ofLevels (levels : List (Level ι)) : Except (TableError ι) (Table ι) :=
  let names := levels.map (·.name)
  (placed levels).foldlM (add names) ⟨levels.map fun l => (l.name, l.assoc), [], []⟩

def find? (t : Table ι) (id : ι) : Option (Entry ι) :=
  t.entries.find? (·.operator.id == id)

def indexOf? (t : Table ι) (id : ι) : Option Nat :=
  t.entries.findIdx? (·.operator.id == id)

def isSign (t : Table ι) (s : String) : Bool :=
  t.signs.contains s

def level? (t : Table ι) (i : Nat) : Option (String × Assoc) :=
  t.levels[i]?

end Table

end Mixfix
