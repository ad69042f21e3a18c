import Mixfix.Decimal.Shortest

namespace Mixfix.Decimal

/-- The double nearest to `mantissa · 10^exponent`. A value of more than `10^309` is infinite and
one of less than `10^-324` is zero, so no large power of ten is ever formed. -/
def Digits.toFloat (d : Digits) : Float :=
  if d.significand = 0 then 0
  else
    let top : Int := (decimalLength d.significand : Int) + d.exponent
    if 310 ≤ top then Float.ofScientific 1 false 400
    else if top ≤ -324 then 0
    else if 0 ≤ d.exponent then Float.ofScientific d.significand false d.exponent.toNat
    else Float.ofScientific d.significand true (-d.exponent).toNat

def digitValue (ds : List Char) : Nat :=
  ds.foldl (fun n c => 10 * n + (c.toNat - '0'.toNat)) 0

def splitSign : List Char → Bool × List Char
  | '-' :: rest => (true, rest)
  | '+' :: rest => (false, rest)
  | cs => (false, cs)

/-- The exponent part after `e`: an optional sign and at least one digit, nothing after them. -/
def readExponent (cs : List Char) : Option Int :=
  let (negative, rest) := splitSign cs
  if rest ≠ [] ∧ rest.all Char.isDigit then
    let n : Int := digitValue rest
    some (if negative then -n else n)
  else none

/-- Digits with an optional point and an optional exponent, as `significand · 10^exponent`. -/
def readUnsigned (cs : List Char) : Option Digits :=
  let whole := cs.takeWhile Char.isDigit
  let afterWhole := cs.dropWhile Char.isDigit
  let (part, afterPart) := match afterWhole with
    | '.' :: rest => (rest.takeWhile Char.isDigit, rest.dropWhile Char.isDigit)
    | rest => ([], rest)
  if whole.isEmpty ∧ part.isEmpty then none
  else
    let scale : Option Int := match afterPart with
      | [] => some 0
      | c :: rest => if c = 'e' ∨ c = 'E' then readExponent rest else none
    scale.map fun e => ⟨digitValue (whole ++ part), e - part.length⟩

/-- Reads decimal text as a double; `none` when the text has none of the accepted forms. -/
def read? (text : String) : Option Float :=
  let (negative, rest) := splitSign text.toList
  let word := String.ofList (rest.map Char.toLower)
  let magnitude : Option Float :=
    if word = "inf" ∨ word = "infinity" then some (Float.ofScientific 1 false 400)
    else if word = "nan" then some (0 / 0)
    else (readUnsigned rest).map Digits.toFloat
  magnitude.map fun x => if negative then -x else x

end Mixfix.Decimal
