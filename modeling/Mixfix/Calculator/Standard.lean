import Mixfix.Calculator.Op
import Mixfix.Grammar.Table

namespace Mixfix.Calculator

open Op

def binary (id : Op) (sign : String) : Operator Op :=
  ⟨id, .chain, [.sign sign, .hole none]⟩

def delimited (opening closing : String) : List Slot :=
  [.sign opening, .hole none, .sign closing]

def standardLevels : List (Level Op) :=
  [ ⟨"atom", .right,
      [⟨group, .value, delimited "(" ")"⟩, ⟨list, .value, delimited "[" "]"⟩,
       ⟨block, .value, delimited "\x7b" "\x7d"⟩, ⟨globalName, .chain, [.sign "#"]⟩,
       ⟨localName, .chain, [.sign "$"]⟩]⟩,
    ⟨"postfix", .left,
      [binary member ".", ⟨call, .chain, delimited "(" ")"⟩, ⟨index, .chain, delimited "[" "]"⟩,
       ⟨blockCall, .chain, delimited "\x7b" "\x7d"⟩, binary special "#"]⟩,
    ⟨"prefix", .right, [⟨pos, .chain, [.sign "+"]⟩, ⟨neg, .chain, [.sign "-"]⟩]⟩,
    ⟨"term", .left, [binary mul "*", binary div "/"]⟩,
    ⟨"sum", .left, [binary add "+", binary sub "-"]⟩,
    ⟨"cmp", .left,
      [binary eq "==", binary ne "!=", binary lt "<", binary gt ">", binary le "<=",
       binary ge ">="]⟩,
    ⟨"assign", .right,
      [⟨assign, .chain, [.hole none, .sign "="]⟩, ⟨update, .chain, [.hole none, .sign "$="]⟩]⟩,
    ⟨"sep", .left, [binary tuple ",", ⟨tupleEnd, .chain, [.sign ","]⟩]⟩,
    ⟨"stmt", .left, [binary seq ";", ⟨seqEnd, .chain, [.sign ";"]⟩]⟩ ]

/-- The standard table. Its levels are valid, so the empty table in the other branch is never
taken. -/
def standard : Table Op :=
  match Table.ofLevels standardLevels with
  | .ok t => t
  | .error _ => ⟨[], [], []⟩

end Mixfix.Calculator
