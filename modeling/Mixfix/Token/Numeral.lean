namespace Mixfix.Numeral

def isInteger : List Char → Bool
  | ['0'] => true
  | c :: ds => '1' ≤ c && c ≤ '9' && ds.all Char.isDigit
  | [] => false

def isMantissa (cs : List Char) : Bool :=
  let whole := cs.takeWhile (· ≠ '.')
  match cs.dropWhile (· ≠ '.') with
  | [] => isInteger whole
  | _ :: part => part.all Char.isDigit && (if whole.isEmpty then !part.isEmpty else isInteger whole)

/-- Whether characters form what follows the exponent mark: an optional sign and an integer. -/
def isExponentTail : List Char → Bool
  | '+' :: ds | '-' :: ds => isInteger ds
  | ds => isInteger ds

/-- Whether a text is a number: a mantissa and an optional exponent. -/
def isNumber (s : String) : Bool :=
  let cs := s.toList
  let notMark := fun c => c ≠ 'e' && c ≠ 'E'
  isMantissa (cs.takeWhile notMark) &&
    match cs.dropWhile notMark with
    | [] => true
    | _ :: tail => isExponentTail tail

/-- Whether a text is a mantissa followed by an exponent mark and nothing else. -/
def isMarkedMantissa (s : String) : Bool :=
  match s.toList.reverse with
  | c :: rest => (c = 'e' || c = 'E') && isMantissa rest.reverse
  | [] => false

def isExponentDigits (s : String) : Bool :=
  isInteger s.toList

end Mixfix.Numeral
