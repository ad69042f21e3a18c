import Mixfix.Token.Basic
import Mixfix.Token.Numeral
import Mixfix.SyntaxError
import Mixfix.Text.Blank
import Mixfix.Decimal.Read

namespace Mixfix

/-- A piece of source text: a sign already cut out, or a residue still to cut. -/
inductive Piece where
  | sign (text : String) (span : Span)
  | residue (text : String) (span : Span)
  deriving Repr

namespace Piece

def span : Piece → Span
  | .sign _ s | .residue _ s => s

/-- The residue piece of a run of characters that starts at `start`, none for an empty run. -/
def residueAt (start : Position) (cs : List Char) : List Piece :=
  if cs.isEmpty then [] else [.residue (String.ofList cs) ⟨start, start.shift cs.length⟩]

end Piece

/-- The words of a source text as residues. `word` holds the characters of the current word in
reverse, which began at `start`; `pos` is the position of the next character. -/
def blankSplit (start pos : Position) (word : List Char) : List Char → List Piece
  | [] => Piece.residueAt start word.reverse
  | c :: cs =>
    if Text.isBlank c then
      let next := if c = '\n' then ⟨pos.line + 1, 0⟩ else pos.shift 1
      Piece.residueAt start word.reverse ++ blankSplit next next [] cs
    else blankSplit start (pos.shift 1) (c :: word) cs

def words (source : String) : List Piece :=
  blankSplit ⟨0, 0⟩ ⟨0, 0⟩ [] source.toList

/-- The parts of `cs` between the occurrences of a nonempty `sep`, found from the left without
overlap. -/
def splitNonempty (sep : List Char) (h : sep ≠ []) : List Char → List (List Char)
  | [] => [[]]
  | c :: cs =>
    if sep.isPrefixOf (c :: cs) then [] :: splitNonempty sep h ((c :: cs).drop sep.length)
    else match splitNonempty sep h cs with
      | first :: rest => (c :: first) :: rest
      | [] => [[c]]
termination_by cs => cs.length
decreasing_by
  all_goals simp_wf
  · have : 0 < sep.length := List.length_pos_iff.mpr h
    omega

/-- The parts of `cs` between the occurrences of `sep`. The empty separator occurs at every
boundary between characters and at both ends. -/
def splitOn (sep cs : List Char) : List (List Char) :=
  if h : sep = [] then [] :: cs.map (fun c => [c]) ++ [[]]
  else splitNonempty sep h cs

/-- Places the parts after the first, each preceded by the sign, from position `pos` on. -/
def placeAfterSigns (sign : String) (pos : Position) : List (List Char) → List Piece
  | [] => []
  | p :: ps =>
    let n := sign.length
    .sign sign ⟨pos, pos.shift n⟩ :: Piece.residueAt (pos.shift n) p ++
      placeAfterSigns sign (pos.shift (n + p.length)) ps

/-- Cuts one piece at every occurrence of a sign; a sign piece stays as it is. -/
def Piece.cut (sign : String) : Piece → List Piece
  | .sign s span => [.sign s span]
  | .residue text span =>
    match splitOn sign.toList text.toList with
    | [] => []
    | p :: ps => Piece.residueAt span.start p ++ placeAfterSigns sign (span.start.shift p.length) ps

def cutAll (signs : List String) (pieces : List Piece) : List Piece :=
  signs.foldl (fun ps sign => ps.flatMap (Piece.cut sign)) pieces

def finiteValue? (text : String) : Option Float :=
  (Decimal.read? text).filter Decimal.isFinite

/-- The number that a mantissa with a mark, a sign `+` or `-`, and exponent digits make. -/
def joinExponent : Piece → Piece → Piece → Option Token
  | .residue m ms, .sign s _, .residue e es =>
    if Numeral.isMarkedMantissa m && (s == "+" || s == "-") && Numeral.isExponentDigits e then
      (finiteValue? (m ++ s ++ e)).map fun x => ⟨.number x, ms.merge es⟩
    else none
  | _, _, _ => none

/-- The token of a residue, which would be the token of index `index`. -/
def classify (text : String) (span : Span) (index : Nat) : Except SyntaxError Token :=
  match (if Numeral.isNumber text then finiteValue? text else none) with
  | some x => .ok ⟨.number x, span⟩
  | none =>
    if (text.toList.head?.map Char.isDigit).getD false || Numeral.isNumber text then
      .error ⟨.malformedNumber text, index, some span⟩
    else .ok ⟨.ident text, span⟩

/-- The token of a single piece, which would be the token of index `index`. -/
def Piece.token (index : Nat) : Piece → Except SyntaxError Token
  | .sign s span => .ok ⟨.sign s, span⟩
  | .residue text span => classify text span index

def assemble (index : Nat) : List Piece → Except SyntaxError (List Token)
  | [] => .ok []
  | p₁ :: p₂ :: p₃ :: rest =>
    match joinExponent p₁ p₂ p₃ with
    | some t => (t :: ·) <$> assemble (index + 1) rest
    | none => do
      let t ← p₁.token index
      (t :: ·) <$> assemble (index + 1) (p₂ :: p₃ :: rest)
  | p :: rest => do
    let t ← p.token index
    (t :: ·) <$> assemble (index + 1) rest
termination_by ps => ps.length

/-- The tokens of a source text, given the signs in the order they cut. -/
def Token.scan (signs : List String) (source : String) : Except SyntaxError (List Token) :=
  assemble 0 (cutAll signs (words source))

end Mixfix
