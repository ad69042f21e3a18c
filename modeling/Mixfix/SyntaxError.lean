import Mixfix.Span
import Mixfix.Text.Quoted

namespace Mixfix

/-- What is wrong with the input. -/
inductive SyntaxFault where
  | malformedNumber (text : String)
  | needsOperandBefore (sign : String)
  | unexpectedSign (sign : String)
  | expectedSign (sign : String)
  | expressionExpected
  | adjacentExpressions
  deriving Repr, DecidableEq

namespace SyntaxFault

def severity : SyntaxFault → Nat
  | .unexpectedSign _ => 1
  | _ => 0

def text? : SyntaxFault → Option String
  | .malformedNumber s | .needsOperandBefore s | .unexpectedSign s | .expectedSign s => some s
  | _ => none

def message : SyntaxFault → String
  | .malformedNumber s => "malformed number literal " ++ Text.quote s
  | .needsOperandBefore s => "an expression is required before " ++ Text.quote s
  | .unexpectedSign s => "unexpected " ++ Text.quote s
  | .expectedSign s => "expected " ++ Text.quote s
  | .expressionExpected => "an expression is expected"
  | .adjacentExpressions => "two expressions cannot simply follow each other"

end SyntaxFault

/-- A fault found at the token of index `index`, with that token's span if there is one. -/
structure SyntaxError where
  fault : SyntaxFault
  index : Nat
  span : Option Span
  deriving Repr, DecidableEq

namespace SyntaxError

def message (e : SyntaxError) : String :=
  "syntax error at token " ++ toString e.index ++ ": " ++ e.fault.message

/-- Whether `e` is reported rather than `old`: it was found further on, or at the same token
with a lower severity. -/
def prefers (e old : SyntaxError) : Bool :=
  old.index < e.index || (e.index == old.index && e.fault.severity < old.fault.severity)

end SyntaxError

end Mixfix
