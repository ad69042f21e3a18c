import Mixfix.Grammar.Table
import Mixfix.Syntax.Tree

namespace Mixfix

namespace Tree

variable {ι : Type} [DecidableEq ι]

mutual

/-- The loosest priority that an operator on the right spine of a tree still takes into its
trailing operand: the greatest bound along the spine, down to the first node without a trailing
operand; zero for a leaf. -/
def reach (t : Table ι) : Tree ι → Nat
  | .leaf _ => 0
  | .node id args =>
    match (t.find? id).bind Entry.bound with
    | some b => max b (reachLast t args)
    | none => 0

def reachLast (t : Table ι) : List (Tree ι) → Nat
  | [] => 0
  | a :: as =>
    match as with
    | [] => reach t a
    | _ :: _ => reachLast t as

end

end Tree

namespace Entry

variable {ι : Type} [DecidableEq ι]

/-- Whether a tree reads back unchanged as argument `i` of a node of `parent`. As the leading
operand it binds at least as tightly as the parent, as tightly only on a level that groups from the
left, and its reach is at most the parent's priority; as the trailing operand it binds tighter
than the parent's bound. A leaf fits anywhere, and so does an operand between two signs. -/
def Admits (t : Table ι) (parent : Entry ι) (i : Nat) : Tree ι → Prop
  | .leaf _ => True
  | arg@(.node id _) =>
    ∀ child, t.find? id = some child →
      if parent.startsWithExpression = true ∧ i = 0 then
        (child.priority < parent.priority ∨
            child.priority = parent.priority ∧ parent.assoc = .left) ∧
          arg.reach t ≤ parent.priority
      else if i + 1 = parent.arity ∧ parent.endsWithExpression = true then
        ∃ b, parent.bound = some b ∧ child.priority < b
      else True

end Entry

namespace Tree

variable {ι : Type} [DecidableEq ι]

/-- A tree each of whose nodes names an operator of the table, has its arity and admits each of its
arguments at its place, with leaves that satisfy `leafOk` and operators that satisfy `opOk`. -/
inductive Placed (t : Table ι) (leafOk : Literal → Prop) (opOk : ι → Prop) : Tree ι → Prop
  | leaf {lit : Literal} : leafOk lit → Placed t leafOk opOk (.leaf lit)
  | node {id : ι} {args : List (Tree ι)} {e : Entry ι} : t.find? id = some e → opOk id →
      args.length = e.arity → (∀ (i : Nat) a, args[i]? = some a → e.Admits t i a) →
      (∀ (i : Nat) a, args[i]? = some a → Placed t leafOk opOk a) →
      Placed t leafOk opOk (.node id args)

theorem reachLast_append (t : Table ι) (init : List (Tree ι)) (last : Tree ι) :
    reachLast t (init ++ [last]) = last.reach t := by
  induction init with
  | nil => simp [reachLast]
  | cons a as ih =>
    cases h : as ++ [last] with
    | nil => simp at h
    | cons b bs =>
      rw [List.cons_append, h, reachLast]
      rw [← h, ih]

end Tree

end Mixfix
