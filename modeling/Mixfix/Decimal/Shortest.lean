namespace Mixfix.Decimal

/-- A finite nonzero magnitude `mantissa · 2^exponent`. The gap to the next double below is half
the gap above when `narrowBelow` holds, which is the case at a power of two. -/
structure Binary where
  mantissa : Nat
  exponent : Int
  narrowBelow : Bool
  deriving Repr, DecidableEq

/-- What a double is: not a number, an infinity, a zero or a finite nonzero value, each
infinity, zero and finite value with its sign. -/
inductive Shape where
  | nan
  | infinity (negative : Bool)
  | zero (negative : Bool)
  | finite (negative : Bool) (magnitude : Binary)
  deriving Repr, DecidableEq

/-- Splits the 64 bits of a double into sign, exponent field and fraction field. -/
def Shape.ofBits (bits : Nat) : Shape :=
  let negative : Bool := bits / Nat.pow 2 63 % 2 == 1
  let field : Nat := bits / Nat.pow 2 52 % Nat.pow 2 11
  let fraction : Nat := bits % Nat.pow 2 52
  if field == Nat.pow 2 11 - 1 then
    if fraction == 0 then .infinity negative else .nan
  else if field == 0 then
    if fraction == 0 then .zero negative
    else .finite negative ⟨fraction, -1074, false⟩
  else
    .finite negative ⟨fraction + Nat.pow 2 52, (field : Int) - 1075, fraction == 0⟩

def Shape.ofFloat (x : Float) : Shape :=
  Shape.ofBits x.toBits.toNat

def isFinite (x : Float) : Bool :=
  match Shape.ofFloat x with
  | .nan | .infinity _ => false
  | _ => true

/-- A decimal `significand · 10^exponent`. -/
structure Digits where
  significand : Nat
  exponent : Int
  deriving Repr, DecidableEq

/-- The number of decimal digits of a natural number; zero has one. -/
def decimalLength (n : Nat) : Nat :=
  if n < 10 then 1 else decimalLength (n / 10) + 1
termination_by n
decreasing_by omega

/-- Drops trailing zeros of the significand, raising the exponent by one for each. -/
def Digits.normalize (d : Digits) : Digits :=
  if d.significand ≠ 0 ∧ d.significand % 10 = 0 then
    Digits.normalize ⟨d.significand / 10, d.exponent + 1⟩
  else d
termination_by d.significand
decreasing_by omega

def scales (t k : Int) : Nat × Nat :=
  (Nat.pow 2 t.toNat * Nat.pow 10 (-k).toNat, Nat.pow 10 k.toNat * Nat.pow 2 (-t).toNat)

/-- The exponent `E` of the leading digit: `10^E ≤ mantissa · 2^exponent < 10^(E+1)`. -/
def Binary.leadingExponent (b : Binary) : Int :=
  let num := b.mantissa * Nat.pow 2 b.exponent.toNat
  let den := Nat.pow 2 (-b.exponent).toNat
  let guess : Int := (decimalLength num : Int) - decimalLength den
  if den * Nat.pow 10 guess.toNat ≤ num * Nat.pow 10 (-guess).toNat then guess else guess - 1

/-- The point of the grid `10^k` that stands for the value, if one of its two neighbours on that
grid reads back as it: the nearer of the two that do, the upper one on a tie. -/
def Binary.onGrid (b : Binary) (k : Int) : Option Digits :=
  -- the value, the ends of its interval and the grid, all in units of `2^(exponent - 2)`
  let value := 4 * b.mantissa
  let low := value - (if b.narrowBelow then 1 else 2)
  let high := value + 2
  let inclusive := b.mantissa % 2 == 0
  let (num, den) := scales (b.exponent - 2) k
  let below := value * num / den
  let rest := value * num % den
  let belowIn := if inclusive then low * num ≤ below * den else low * num < below * den
  let aboveIn :=
    if inclusive then (below + 1) * den ≤ high * num else (below + 1) * den < high * num
  if belowIn && (!aboveIn || 2 * rest < den) then some ⟨below, k⟩
  else if aboveIn then some ⟨below + 1, k⟩
  else none

/-- The fewest significant digits that read back as the value; seventeen always suffice. -/
def Binary.shortest (b : Binary) : Digits :=
  let lead := b.leadingExponent
  let found := (List.range 17).findSome? fun n => b.onGrid (lead - (n : Nat))
  (found.getD ⟨b.mantissa, 0⟩).normalize

end Mixfix.Decimal
