namespace Mixfix.Text

/-- Whether a character has the Unicode property White_Space: the ASCII tab, line feed, line
tabulation, form feed, carriage return and space, the next line control, the no-break space, the
ogham space mark, the eleven spaces from the en quad to the hair space, the line and paragraph
separators, the narrow no-break space, the medium mathematical space and the ideographic space. -/
def isBlank (c : Char) : Bool :=
  let n := c.toNat
  (0x09 ≤ n && n ≤ 0x0D) || n == 0x20 || n == 0x85 || n == 0xA0 || n == 0x1680 ||
    (0x2000 ≤ n && n ≤ 0x200A) || n == 0x2028 || n == 0x2029 || n == 0x202F ||
    n == 0x205F || n == 0x3000

def words (cs : List Char) : List (List Char) :=
  (cs.splitOnP isBlank).filter (· ≠ [])

def String.words (s : String) : List String :=
  (Text.words s.toList).map String.ofList

def trim (s : String) : String :=
  String.ofList ((s.toList.dropWhile isBlank).reverse.dropWhile isBlank).reverse

end Mixfix.Text
