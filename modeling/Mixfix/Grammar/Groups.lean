import Mixfix.Grammar.Table

namespace Mixfix

/-- The opening and the continuing operators of each sign that has any. -/
structure Groups (ι : Type) where
  opening : List (String × List (Entry ι))
  continuing : List (String × List (Entry ι))

namespace Groups

variable {ι : Type}

/-- The entries of a sign among `entries`, longest pattern first, in table order otherwise. -/
def ofSign (entries : List (Entry ι)) (sign : String) : List (Entry ι) :=
  (entries.filter (·.firstSign == sign)).mergeSort fun a b =>
    b.operator.pattern.length ≤ a.operator.pattern.length

def bySign (entries : List (Entry ι)) (signs : List String) : List (String × List (Entry ι)) :=
  signs.filterMap fun s =>
    match ofSign entries s with
    | [] => none
    | g => some (s, g)

def ofTable (t : Table ι) : Groups ι :=
  { opening := bySign (t.entries.filter (!·.startsWithExpression)) t.signs
    continuing := bySign (t.entries.filter (·.startsWithExpression)) t.signs }

def opening? (g : Groups ι) (sign : String) : Option (List (Entry ι)) :=
  g.opening.lookup sign

def continuing? (g : Groups ι) (sign : String) : Option (List (Entry ι)) :=
  g.continuing.lookup sign

end Groups

end Mixfix
