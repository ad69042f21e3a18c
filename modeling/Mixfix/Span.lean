namespace Mixfix

/-- A line and a column, both from zero. -/
structure Position where
  line : Nat
  column : Nat
  deriving Repr, DecidableEq

namespace Position

def shift (p : Position) (n : Nat) : Position :=
  ⟨p.line, p.column + n⟩

def compare (p q : Position) : Ordering :=
  (Ord.compare p.line q.line).then (Ord.compare p.column q.column)

def le (p q : Position) : Bool :=
  p.compare q != .gt

def min (p q : Position) : Position :=
  if p.le q then p else q

def max (p q : Position) : Position :=
  if q.le p then p else q

end Position

/-- A stretch of source text from `start` to `stop`. -/
structure Span where
  start : Position
  stop : Position
  deriving Repr, DecidableEq

namespace Span

/-- The smallest span holding both: the earlier start and the later end. -/
def merge (a b : Span) : Span :=
  ⟨a.start.min b.start, a.stop.max b.stop⟩

def isEmpty (s : Span) : Bool :=
  s.start == s.stop

def lineRange (s : Span) : Nat × Nat :=
  (s.start.line, s.stop.line)

def compare (a b : Span) : Ordering :=
  (a.start.compare b.start).then (a.stop.compare b.stop)

def display (s : Span) : String :=
  "span " ++ toString s.start.line ++ ":" ++ toString s.start.column ++ " to " ++
    toString s.stop.line ++ ":" ++ toString s.stop.column

end Span

end Mixfix
