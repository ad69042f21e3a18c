import Mixfix.Grammar.Operator

namespace Mixfix.Calculator

/-- An operator of the calculator language. -/
inductive Op where
  | group
  | list
  | block
  | globalName
  | localName
  | member
  | call
  | index
  | blockCall
  | special
  | pos
  | neg
  | mul
  | div
  | add
  | sub
  | eq
  | ne
  | lt
  | gt
  | le
  | ge
  | assign
  | update
  | tuple
  | tupleEnd
  | seq
  | seqEnd
  deriving Repr, DecidableEq, Inhabited

namespace Op

def all : List Op :=
  [.group, .list, .block, .globalName, .localName, .member, .call, .index, .blockCall, .special,
   .pos, .neg, .mul, .div, .add, .sub, .eq, .ne, .lt, .gt, .le, .ge, .assign, .update, .tuple,
   .tupleEnd, .seq, .seqEnd]

def name : Op → String
  | .group => "group"
  | .list => "list"
  | .block => "block"
  | .globalName => "global"
  | .localName => "local"
  | .member => "member"
  | .call => "call"
  | .index => "index"
  | .blockCall => "block_call"
  | .special => "special"
  | .pos => "pos"
  | .neg => "neg"
  | .mul => "mul"
  | .div => "div"
  | .add => "add"
  | .sub => "sub"
  | .eq => "eq"
  | .ne => "ne"
  | .lt => "lt"
  | .gt => "gt"
  | .le => "le"
  | .ge => "ge"
  | .assign => "assign"
  | .update => "update"
  | .tuple => "tuple"
  | .tupleEnd => "tuple_end"
  | .seq => "seq"
  | .seqEnd => "seq_end"

def label : Op → String
  | .group => "Group"
  | .list => "List"
  | .block => "Block"
  | .globalName => "Global"
  | .localName => "Local"
  | .member => "Member"
  | .call => "Call"
  | .index => "Index"
  | .blockCall => "BlockCall"
  | .special => "Special"
  | .pos => "Pos"
  | .neg => "Neg"
  | .mul => "Mul"
  | .div => "Div"
  | .add => "Add"
  | .sub => "Sub"
  | .eq => "Eq"
  | .ne => "Ne"
  | .lt => "Lt"
  | .gt => "Gt"
  | .le => "Le"
  | .ge => "Ge"
  | .assign => "Assign"
  | .update => "Update"
  | .tuple => "Tuple"
  | .tupleEnd => "TupleEnd"
  | .seq => "Seq"
  | .seqEnd => "SeqEnd"

def position (op : Op) : Nat :=
  (all.findIdx? (· == op)).getD 0

def ofName? (s : String) : Option Op :=
  all.find? (·.name == s)

instance : OperatorId Op where
  name := name
  label := label
  ofName? := ofName?

end Op

end Mixfix.Calculator
