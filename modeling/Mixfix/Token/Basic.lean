import Mixfix.Span

namespace Mixfix

/-- What a token is. -/
inductive TokenValue where
  | sign (text : String)
  | number (value : Float)
  | ident (name : String)
  deriving Repr

/-- A token and its span. -/
structure Token where
  value : TokenValue
  span : Span
  deriving Repr

namespace Token

def sign? (t : Token) : Option String :=
  match t.value with
  | .sign s => some s
  | _ => none

def number? (t : Token) : Option Float :=
  match t.value with
  | .number x => some x
  | _ => none

def ident? (t : Token) : Option String :=
  match t.value with
  | .ident s => some s
  | _ => none

end Token

end Mixfix
