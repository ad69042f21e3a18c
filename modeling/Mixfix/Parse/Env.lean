import Mixfix.Grammar.Groups
import Mixfix.Syntax.Tree
import Mixfix.SyntaxError

namespace Mixfix

/-- What the next token must be. -/
inductive Mode where
  | expectOperand
  | afterOperand
  | expectSign
  deriving Repr, DecidableEq

/-- An operator begun, with the index of its next slot. -/
structure Pending (ι : Type) where
  entry : Entry ι
  next : Nat
  deriving Repr

/-- One line of the search. -/
structure Env (ι : Type) where
  cursor : Nat := 0
  operands : List (Tree ι) := []
  pending : List (Pending ι) := []
  mode : Mode := .expectOperand
  deriving Repr

/-- An alternative left for later: entering `entry` from `env`. -/
structure Branch (ι : Type) where
  env : Env ι
  entry : Entry ι
  deriving Repr

/-- Counters of a search: the tokens, the alternatives set aside, the alternatives taken up after
a failure, and the nodes built on every line, abandoned ones included. -/
structure Stats where
  tokens : Nat := 0
  forks : Nat := 0
  backtracks : Nat := 0
  reductions : Nat := 0
  deriving Repr, DecidableEq

/-- A broken invariant of the search: never met with a validated table. -/
inductive Fault where
  | stackUnderflow
  | danglingExpressions (count : Nat)
  deriving Repr, DecidableEq

def Fault.message : Fault → String
  | .stackUnderflow => "expression stack underflow"
  | .danglingExpressions n => toString n ++ " expressions remain after draining"

/-- Why tokens do not parse: a syntax error, or a broken invariant. -/
inductive ParseError where
  | rejected (error : SyntaxError)
  | internal (fault : Fault)
  deriving Repr, DecidableEq

/-- The message of a parse error; a broken invariant is marked as internal. -/
def ParseError.message : ParseError → String
  | .rejected e => e.message
  | .internal f => "internal error: " ++ f.message

/-- The sign that a pending operator waits for next, if its next slot is a sign. -/
def Pending.slotSign {ι : Type} (p : Pending ι) : Option String :=
  p.entry.operator.pattern[p.next]? >>= Slot.sign?

/-- The innermost pending operator that waits for a sign: how many lie inside it, and the sign. -/
def obligation {ι : Type} : List (Pending ι) → Option (Nat × String)
  | [] => none
  | p :: ps =>
    match p.slotSign with
    | some s => some (0, s)
    | none => (obligation ps).map fun (d, s) => (d + 1, s)

/-- Whether a pending operator is complete but for its trailing operand, whose bound admits no
operator of level `priority`. -/
def Pending.closesBefore {ι : Type} (priority : Nat) (p : Pending ι) : Bool :=
  match p.entry.bound with
  | some b => p.entry.restEnd ≤ p.next && b ≤ priority
  | none => false

end Mixfix
