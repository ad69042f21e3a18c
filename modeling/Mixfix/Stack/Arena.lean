namespace Mixfix.Stack

/-- A node of the arena: a value and the node below it. -/
structure Link (α : Type) where
  value : α
  parent : Option Nat
  deriving Repr

/-- The nodes of all stacks, in the order they were made. -/
structure Arena (α : Type) where
  links : Array (Link α) := #[]
  deriving Repr

/-- A stack of an arena: its top node and its length. -/
structure Handle where
  top : Option Nat := none
  length : Nat := 0
  deriving Repr, DecidableEq

namespace Arena

variable {α : Type}

def nodeCount (a : Arena α) : Nat :=
  a.links.size

/-- Pushes a value onto a stack, giving the arena with the new node and the new stack. -/
def push (a : Arena α) (h : Handle) (v : α) : Arena α × Handle :=
  (⟨a.links.push ⟨v, h.top⟩⟩, ⟨some a.links.size, h.length + 1⟩)

def peek (a : Arena α) (h : Handle) : Option α :=
  h.top >>= fun i => a.links[i]?.map (·.value)

/-- The stack below the top and the top value; none for the empty stack. -/
def pop (a : Arena α) (h : Handle) : Option (Handle × α) :=
  h.top >>= fun i => a.links[i]?.map fun l => (⟨l.parent, h.length - 1⟩, l.value)

/-- The values from node `i` down, following at most `fuel` links. -/
def valuesFrom (a : Arena α) : Nat → Option Nat → List α
  | 0, _ => []
  | _, none => []
  | fuel + 1, some i =>
    match a.links[i]? with
    | some l => l.value :: a.valuesFrom fuel l.parent
    | none => []

def toList (a : Arena α) (h : Handle) : List α :=
  a.valuesFrom a.links.size h.top

end Arena

end Mixfix.Stack
