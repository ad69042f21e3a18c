import Mixfix.Grammar.Operator
import Mixfix.Decimal.Notation

namespace Mixfix

/-- A literal of the source. -/
inductive Literal where
  | number (value : Float)
  | ident (name : String)
  deriving Repr

namespace Literal

/-- The text of a literal in an s-expression: a number positionally, a name as it is. -/
def display : Literal → String
  | .number x => Decimal.display x
  | .ident s => s

/-- The text that reads back as the literal: a number without a point, a name as it is. -/
def source : Literal → String
  | .number x => Decimal.source x
  | .ident s => s

def same : Literal → Literal → Bool
  | .number x, .number y => x == y
  | .ident s, .ident t => s == t
  | _, _ => false

end Literal

/-- A syntax tree over operator identifiers `ι`. -/
inductive Tree (ι : Type) where
  | leaf (literal : Literal)
  | node (id : ι) (args : List (Tree ι))
  deriving Repr

namespace Tree

variable {ι : Type}

def id? : Tree ι → Option ι
  | .leaf _ => none
  | .node id _ => some id

def args : Tree ι → List (Tree ι)
  | .leaf _ => []
  | .node _ args => args

def number? : Tree ι → Option Float
  | .leaf (.number x) => some x
  | _ => none

mutual

def size : Tree ι → Nat
  | .leaf _ => 1
  | .node _ args => 1 + sizes args

def sizes : List (Tree ι) → Nat
  | [] => 0
  | a :: as => size a + sizes as

end

def sexpr [OperatorId ι] : Tree ι → String
  | .leaf lit => lit.display
  | .node id args =>
    OperatorId.name id ++ "(" ++ ", ".intercalate (args.attach.map fun ⟨a, _⟩ => a.sexpr) ++ ")"

mutual

def same [BEq ι] : Tree ι → Tree ι → Bool
  | .leaf a, .leaf b => a.same b
  | .node i as, .node j bs => i == j && sameArgs as bs
  | _, _ => false

/-- Whether two argument lists are the same, argument by argument. -/
def sameArgs [BEq ι] : List (Tree ι) → List (Tree ι) → Bool
  | [], [] => true
  | a :: as, b :: bs => same a b && sameArgs as bs
  | _, _ => false

end

end Tree

end Mixfix
