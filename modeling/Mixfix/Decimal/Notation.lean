import Mixfix.Decimal.Shortest

namespace Mixfix.Decimal

def zeros (n : Nat) : String :=
  String.ofList (List.replicate n '0')

def Digits.positional (d : Digits) : String :=
  let text := toString d.significand
  if 0 ≤ d.exponent then text ++ zeros d.exponent.toNat
  else
    let point : Int := (text.length : Int) + d.exponent
    if point ≤ 0 then "0." ++ zeros (-point).toNat ++ text
    else
      let whole := text.toList.take point.toNat
      let part := text.toList.drop point.toNat
      String.ofList whole ++ "." ++ String.ofList part

/-- Integer text of `significand · 10^exponent`: the significand, then up to six zeros, or else
`e` and the exponent. -/
def Digits.compact (d : Digits) : String :=
  let text := toString d.significand
  if d.exponent = 0 then text
  else if 1 ≤ d.exponent ∧ d.exponent ≤ 6 then text ++ zeros d.exponent.toNat
  else text ++ "e" ++ toString d.exponent

/-- Writes a double through `write`, which gets its shortest digits. -/
def writeWith (write : Digits → String) (x : Float) : String :=
  match Shape.ofFloat x with
  | .nan => "NaN"
  | .infinity negative => if negative then "-inf" else "inf"
  | .zero negative => if negative then "-0" else "0"
  | .finite negative b => (if negative then "-" else "") ++ write b.shortest

def display (x : Float) : String :=
  writeWith Digits.positional x

/-- The point-free text of a double, read back by the token grammar as the same number. -/
def source (x : Float) : String :=
  writeWith Digits.compact x

end Mixfix.Decimal
