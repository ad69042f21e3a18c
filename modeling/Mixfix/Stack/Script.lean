import Mixfix.Stack.Arena

namespace Mixfix.Stack

/-- An operation on the stacks of a script, naming stacks by handle index. -/
inductive Command (α : Type) where
  | push (h : Nat) (v : α)
  | pop (h : Nat)
  | peek (h : Nat)
  | len (h : Nat)
  | iter (h : Nat)
  | eq (h g : Nat)
  deriving Repr

/-- The result of an operation. -/
inductive Reply (α : Type) where
  | pushed (handle : Nat)
  | popped (result : Option (Nat × α))
  | top (value : Option α)
  | length (length : Nat) (isEmpty : Bool)
  | values (values : List α)
  | same (equal : Bool)
  deriving Repr

/-- The arena and the table of handles of a script. -/
structure Session (α : Type) where
  arena : Arena α := {}
  handles : Array Handle := #[{}]

namespace Session

variable {α : Type}

def addHandle (s : Session α) (h : Handle) : Session α × Nat :=
  ({ s with handles := s.handles.push h }, s.handles.size)

/-- Runs one operation; none when it names a handle the table lacks. -/
def run (s : Session α) : Command α → Option (Reply α × Session α)
  | .push i v => do
    let h ← s.handles[i]?
    let (arena, h') := s.arena.push h v
    let (s, n) := { s with arena }.addHandle h'
    return (.pushed n, s)
  | .pop i => do
    let h ← s.handles[i]?
    match s.arena.pop h with
    | none => return (.popped none, s)
    | some (below, v) =>
      let (s, n) := s.addHandle below
      return (.popped (some (n, v)), s)
  | .peek i => do return (.top (s.arena.peek (← s.handles[i]?)), s)
  | .len i => do
    let h ← s.handles[i]?
    return (.length h.length (h.length == 0), s)
  | .iter i => do return (.values (s.arena.toList (← s.handles[i]?)), s)
  | .eq i j => do return (.same ((← s.handles[i]?) == (← s.handles[j]?)), s)

/-- Runs a script: each reply with the node count after it, up to the first operation that names
a missing handle, if any. -/
def runAll (s : Session α) : List (Command α) → List (Reply α × Nat) × Bool
  | [] => ([], true)
  | c :: cs =>
    match s.run c with
    | none => ([], false)
    | some (r, s') =>
      let (rs, ok) := s'.runAll cs
      ((r, s'.arena.nodeCount) :: rs, ok)

end Session

end Mixfix.Stack
