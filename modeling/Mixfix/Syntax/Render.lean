import Mixfix.Syntax.Tree
import Mixfix.Grammar.Table

namespace Mixfix

/-- Why a tree cannot be printed with a table. -/
inductive RenderError (ι : Type) where
  | unknownOperator (id : ι)
  | arityMismatch (id : ι) (expected found : Nat)
  deriving Repr, DecidableEq

def RenderError.message {ι : Type} [OperatorId ι] : RenderError ι → String
  | .unknownOperator id => "operator " ++ OperatorId.label id ++ " is not defined"
  | .arityMismatch id e f =>
    "operator " ++ OperatorId.label id ++ " takes " ++ toString e ++ " arguments, found " ++
      toString f

/-- A pattern written out: each sign as `sign` gives it, each hole filled in order from `parts`;
also the parts left over. -/
def fillSlots {α : Type} (sign : String → α) : List Slot → List (List α) → List α × List (List α)
  | [], parts => ([], parts)
  | .sign s :: rest, parts =>
    let (out, left) := fillSlots sign rest parts
    (sign s :: out, left)
  | .hole _ :: rest, p :: parts =>
    let (out, left) := fillSlots sign rest parts
    (p ++ out, left)
  | .hole _ :: rest, [] => fillSlots sign rest []

/-- A node of entry `e` written out, its arguments written as `parts`: the first argument of a
left-associative chain, then the pattern, then the arguments left, which is the trailing operand
of a right-associative chain. -/
def Entry.layout {ι α : Type} (e : Entry ι) (sign : String → α) (parts : List (List α)) : List α :=
  let (before, parts) :=
    if e.operator.kind == .chain && e.assoc == .left then
      match parts with
      | p :: rest => (p, rest)
      | [] => ([], [])
    else ([], parts)
  let (middle, after) := fillSlots sign e.operator.pattern parts
  before ++ middle ++ after.flatten

namespace Tree

variable {ι : Type} [DecidableEq ι]

mutual

def tokens (t : Table ι) : Tree ι → Except (RenderError ι) (List String)
  | .leaf lit => .ok [lit.source]
  | .node id args => do
    let some e := t.find? id | throw (.unknownOperator id)
    if args.length ≠ e.arity then throw (.arityMismatch id e.arity args.length)
    let parts ← partTokens t args
    return e.layout (fun s => s) parts

/-- The source tokens of each tree of a list, in order; the first refusal stops. -/
def partTokens (t : Table ι) : List (Tree ι) → Except (RenderError ι) (List (List String))
  | [] => .ok []
  | a :: as => do
    let p ← tokens t a
    let ps ← partTokens t as
    return p :: ps

end

def render (t : Table ι) (tree : Tree ι) : Except (RenderError ι) String :=
  (tree.tokens t).map (" ".intercalate ·)

end Tree

end Mixfix
