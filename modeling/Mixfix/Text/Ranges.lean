namespace Mixfix.Text.Ranges

/-- The value of a hexadecimal numeral; characters that are no hexadecimal digit count as zero. -/
def hexValue (s : String) : Nat :=
  s.toList.foldl (fun n c =>
    let d :=
      if c.isDigit then c.toNat - '0'.toNat
      else if 'a' ≤ c ∧ c ≤ 'f' then c.toNat - 'a'.toNat + 10
      else 0
    16 * n + d) 0

def decodeRange (s : String) : Nat × Nat :=
  match s.splitOn "-" with
  | [a, b] => (hexValue a, hexValue b)
  | _ => (hexValue s, hexValue s)

def decode (s : String) : Array (Nat × Nat) :=
  ((s.splitOn ",").map decodeRange).toArray

def contains (rs : Array (Nat × Nat)) (n : Nat) : Bool :=
  rs.any fun r => r.1 ≤ n && n ≤ r.2

end Mixfix.Text.Ranges
