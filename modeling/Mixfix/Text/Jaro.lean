namespace Mixfix.Text

def jaro (a b : String) : Float :=
  let xs := a.toList.toArray
  let ys := b.toList.toArray
  if xs.isEmpty && ys.isEmpty then 1
  else if xs.isEmpty || ys.isEmpty then 0
  else
    let window := (max xs.size ys.size) / 2 - 1
    -- mark, for each character of `xs`, the first unused equal character of `ys` in the window
    let (matchedX, matchedY) := (List.range xs.size).foldl (fun (mx, my) i =>
      let lo := i - window
      let hi := min (i + window + 1) ys.size
      match (List.range (hi - lo)).find? (fun k =>
          !my.getD (lo + k) false && ys[lo + k]? == xs[i]?) with
      | some k => (mx.set! i true, my.set! (lo + k) true)
      | none => (mx, my)) (Array.replicate xs.size false, Array.replicate ys.size false)
    let sx := (List.range xs.size).filterMap fun i => if matchedX.getD i false then xs[i]? else none
    let sy := (List.range ys.size).filterMap fun i => if matchedY.getD i false then ys[i]? else none
    let m := sx.length
    if m = 0 then 0
    else
      let halfSwaps := ((sx.zip sy).filter fun (p, q) => p != q).length
      let mf := m.toFloat
      (mf / xs.size.toFloat + mf / ys.size.toFloat + (mf - (halfSwaps / 2).toFloat) / mf) / 3

/-- Inserts a scored candidate after every candidate scored no higher, so that equal scores keep
their order. -/
def insertByScore (c : String × Float) : List (String × Float) → List (String × Float)
  | [] => [c]
  | d :: ds => if c.2 < d.2 then c :: d :: ds else d :: insertByScore c ds

/-- The candidates alike enough to `word`, the least alike first; equally alike ones keep their
order. -/
def similar (word : String) (candidates : List String) : List String :=
  let scored := candidates.filterMap fun c =>
    let s := jaro word c
    if s > 0.7 then some (c, s) else none
  (scored.foldl (fun acc c => insertByScore c acc) []).map (·.1)

/-- The candidate most alike to `word`, the last of equally alike ones, if one is alike enough. -/
def mostSimilar (word : String) (candidates : List String) : Option String :=
  (similar word candidates).getLast?

end Mixfix.Text
