import Mixfix.Parse.Env

namespace Mixfix

variable {ι : Type}

namespace Entry

/-- The trailing operand of `e` takes an operator of priority `p` at its head. -/
def Takes (e : Entry ι) (p : Nat) : Prop :=
  ∃ b, e.bound = some b ∧ p < b

/-- An operator of priority `p` closes `e`: it is at or past the bound of `e`. -/
def EndsBefore (e : Entry ι) (p : Nat) : Prop :=
  ∃ b, e.bound = some b ∧ b ≤ p

/-- The operator `e` begun with all its slots matched: it waits for its trailing operand. -/
def matched (e : Entry ι) : Pending ι :=
  ⟨e, e.restEnd⟩

variable {e : Entry ι} {p : Nat}

theorem closesBefore_matched : e.matched.closesBefore p = true ↔ e.EndsBefore p := by
  unfold matched Pending.closesBefore EndsBefore
  cases e.bound <;> simp

theorem closesBefore_matched_eq_false (h : e.Takes p) : e.matched.closesBefore p = false := by
  obtain ⟨b, hb, hlt⟩ := h
  unfold matched Pending.closesBefore
  rw [hb]
  simpa using hlt

theorem takes_of_closesBefore (hb : e.bound.isSome) (h : e.matched.closesBefore p = false) :
    e.Takes p := by
  obtain ⟨b, hb⟩ := Option.isSome_iff_exists.1 hb
  unfold matched Pending.closesBefore at h
  rw [hb] at h
  exact ⟨b, hb, by simpa using h⟩

end Entry

/-- A binary tree over literals and operators: a reading of a chain of binary operators. -/
inductive Infix (ι : Type) where
  | leaf (literal : Literal)
  | node (op : Entry ι) (left right : Infix ι)

namespace Infix

/-- The syntax tree: a node holds its operator and its two operands. -/
def toTree : Infix ι → Tree ι
  | .leaf lit => .leaf lit
  | .node o l r => .node o.operator.id [l.toTree, r.toTree]

def first : Infix ι → Literal
  | .leaf lit => lit
  | .node _ l _ => l.first

def pairs : Infix ι → List (Entry ι × Literal)
  | .leaf _ => []
  | .node o l r => l.pairs ++ (o, r.first) :: r.pairs

def leftSpine : Infix ι → List (Entry ι)
  | .leaf _ => []
  | .node o l _ => o :: l.leftSpine

def rightSpine : Infix ι → List (Entry ι)
  | .leaf _ => []
  | .node o _ r => o :: r.rightSpine

/-- Every node admits its operands: its trailing operand takes each operator on its own left
spine, and its priority closes each operator on the right spine of its leading operand. -/
def Climbs : Infix ι → Prop
  | .leaf _ => True
  | .node o l r => l.Climbs ∧ r.Climbs ∧ (∀ q ∈ r.leftSpine, o.Takes q.priority) ∧
      ∀ q ∈ l.rightSpine, q.EndsBefore o.priority

end Infix

/-- Precedence climbing under way: the operand read last, over the operators begun, the
innermost first, each with its leading operand. -/
structure Yard (ι : Type) where
  top : Infix ι
  below : List (Entry ι × Infix ι)

namespace Yard

def reduce (y : Yard ι) : Yard ι :=
  match y.below with
  | [] => y
  | (p, l) :: rest => ⟨.node p l y.top, rest⟩

def reduceTimes : Nat → Yard ι → Yard ι
  | 0, y => y
  | n + 1, y => reduceTimes n y.reduce

/-- Completes the operators that an operator of priority `p` closes. -/
def unwind (y : Yard ι) (p : Nat) : Yard ι :=
  y.reduceTimes (y.below.takeWhile fun pl => pl.1.matched.closesBefore p).length

def shift (y : Yard ι) (p : Entry ι × Literal) : Yard ι :=
  ⟨.leaf p.2, (p.1, (y.unwind p.1.priority).top) :: (y.unwind p.1.priority).below⟩

def finish (y : Yard ι) : Yard ι :=
  y.reduceTimes y.below.length

def climb (x : Literal) (rest : List (Entry ι × Literal)) : Infix ι :=
  (rest.foldl shift ⟨.leaf x, []⟩).finish.top

/-- What a yard with `top` over `below` has read: its first literal, and each operator with the
literal after it. -/
def reading : Infix ι → List (Entry ι × Infix ι) → Literal × List (Entry ι × Literal)
  | top, [] => (top.first, top.pairs)
  | top, (p, l) :: rest => ((reading l rest).1, (reading l rest).2 ++ (p, top.first) :: top.pairs)

/-- A yard with `top` over `below` is a right comb whose nodes climb: every operand climbs, and
each operator begun has a bound, takes the operand above it and the operator begun above it, and
closes the right spine of its leading operand. -/
def Stacked : Infix ι → List (Entry ι × Infix ι) → Prop
  | top, [] => top.Climbs
  | top, (p, l) :: rest =>
    top.Climbs ∧ p.bound.isSome ∧ (∀ q ∈ top.leftSpine, p.Takes q.priority) ∧
      (∀ q ∈ l.rightSpine, q.EndsBefore p.priority) ∧
      (∀ pl ∈ rest.head?, pl.1.Takes p.priority) ∧ Stacked l rest

/-- The yard that has read the tree `T` over `below`, with the right spine of `T` begun and not
completed. -/
def readTree : Infix ι → List (Entry ι × Infix ι) → Yard ι
  | .leaf x, below => ⟨.leaf x, below⟩
  | .node o l r, below => readTree r ((o, l) :: below)

section Reduce

variable {top l : Infix ι} {q : Entry ι} {rest : List (Entry ι × Infix ι)} {p : Nat}

theorem reduce_cons : (⟨top, (q, l) :: rest⟩ : Yard ι).reduce = ⟨.node q l top, rest⟩ := rfl

theorem reduceTimes_succ' (n : Nat) (y : Yard ι) :
    y.reduceTimes (n + 1) = (y.reduceTimes n).reduce := by
  induction n generalizing y with
  | zero => rfl
  | succ n ih => exact ih y.reduce

theorem below_reduceTimes (n : Nat) (y : Yard ι) : (y.reduceTimes n).below = y.below.drop n := by
  induction n generalizing y with
  | zero => rfl
  | succ n ih =>
    rw [reduceTimes, ih]
    obtain ⟨top, below⟩ := y
    cases below with
    | nil => simp [reduce]
    | cons pl rest => rfl

theorem unwind_closes (h : q.matched.closesBefore p = true) :
    (⟨top, (q, l) :: rest⟩ : Yard ι).unwind p = (⟨.node q l top, rest⟩ : Yard ι).unwind p := by
  unfold unwind
  simp only [List.takeWhile_cons, h, if_true, List.length_cons]
  rfl

theorem unwind_holds (h : q.matched.closesBefore p = false) :
    (⟨top, (q, l) :: rest⟩ : Yard ι).unwind p = ⟨top, (q, l) :: rest⟩ := by
  unfold unwind
  simp only [List.takeWhile_cons, h, Bool.false_eq_true, if_false, List.length_nil]
  rfl

theorem unwind_nil : (⟨top, []⟩ : Yard ι).unwind p = ⟨top, []⟩ := rfl

end Reduce

section Reading

theorem reading_reduce (y : Yard ι) :
    reading y.reduce.top y.reduce.below = reading y.top y.below := by
  obtain ⟨top, below⟩ := y
  cases below with
  | nil => rfl
  | cons pl rest =>
    obtain ⟨q, l⟩ := pl
    cases rest with
    | nil => simp [reduce, reading, Infix.first, Infix.pairs]
    | cons pl' rest' => simp [reduce, reading, Infix.first, Infix.pairs]

theorem reading_reduceTimes (n : Nat) (y : Yard ι) :
    reading (y.reduceTimes n).top (y.reduceTimes n).below = reading y.top y.below := by
  induction n generalizing y with
  | zero => rfl
  | succ n ih => rw [reduceTimes, ih, reading_reduce]

theorem reading_shift (y : Yard ι) (p : Entry ι × Literal) :
    reading (y.shift p).top (y.shift p).below =
      ((reading y.top y.below).1, (reading y.top y.below).2 ++ [p]) := by
  simp only [shift, reading, Infix.first, Infix.pairs, unwind, reading_reduceTimes]

end Reading

section Stacked

variable {top l : Infix ι} {q : Entry ι} {rest : List (Entry ι × Infix ι)} {p : Nat}

theorem Stacked.climbs : Stacked top rest → top.Climbs := by
  cases rest with
  | nil => exact id
  | cons pl rest => exact fun h => h.1

theorem Stacked.reduce (h : Stacked top ((q, l) :: rest)) : Stacked (.node q l top) rest := by
  obtain ⟨htop, -, htakes, hends, hchain, hl⟩ := h
  have hnode : (Infix.node q l top).Climbs := ⟨hl.climbs, htop, htakes, hends⟩
  cases rest with
  | nil => exact hnode
  | cons pl rest =>
    obtain ⟨-, hb, htakes', hends', hchain', hrest⟩ := hl
    refine ⟨hnode, hb, fun q' hq' => ?_, hends', hchain', hrest⟩
    rcases List.mem_cons.1 hq' with rfl | hq'
    · exact hchain pl rfl
    · exact htakes' q' hq'

theorem Stacked.reduceTimes : ∀ (n : Nat) (y : Yard ι), Stacked y.top y.below →
    Stacked (y.reduceTimes n).top (y.reduceTimes n).below
  | 0, _, h => h
  | n + 1, ⟨_, []⟩, h => Stacked.reduceTimes n _ h
  | n + 1, ⟨top, (q, l) :: rest⟩, h => Stacked.reduceTimes n ⟨.node q l top, rest⟩ h.reduce

theorem Stacked.unwind : ∀ (top : Infix ι) (below : List (Entry ι × Infix ι)),
    Stacked top below → (∀ q ∈ top.rightSpine, q.EndsBefore p) →
      Stacked (Yard.unwind ⟨top, below⟩ p).top (Yard.unwind ⟨top, below⟩ p).below ∧
        (∀ q ∈ (Yard.unwind ⟨top, below⟩ p).top.rightSpine, q.EndsBefore p) ∧
        ∀ pl ∈ (Yard.unwind ⟨top, below⟩ p).below.head?, pl.1.Takes p
  | top, [], h, hends => by
    rw [unwind_nil]
    exact ⟨h, hends, fun _ h => nomatch h⟩
  | top, (q, l) :: rest, h, hends => by
    cases hq : q.matched.closesBefore p with
    | true =>
      rw [unwind_closes hq]
      refine Stacked.unwind (.node q l top) rest h.reduce fun q' hq' => ?_
      rcases List.mem_cons.1 hq' with rfl | hq'
      · exact Entry.closesBefore_matched.1 hq
      · exact hends q' hq'
    | false =>
      rw [unwind_holds hq]
      refine ⟨h, hends, fun pl hpl => ?_⟩
      cases hpl
      exact Entry.takes_of_closesBefore h.2.1 hq

theorem Stacked.shift (y : Yard ι) (h : Stacked y.top y.below) (htop : y.top.rightSpine = [])
    {p : Entry ι × Literal} (hp : p.1.bound.isSome) : Stacked (y.shift p).top (y.shift p).below := by
  obtain ⟨hs, hends, hhead⟩ := Stacked.unwind (p := p.1.priority) y.top y.below h
    (by simp [htop])
  exact ⟨trivial, hp, fun _ h => absurd h List.not_mem_nil, hends, hhead, hs⟩

end Stacked

theorem foldl_shift (rest : List (Entry ι × Literal)) (hb : ∀ p ∈ rest, p.1.bound.isSome) :
    ∀ (y : Yard ι) (pre : List (Entry ι × Literal)), Stacked y.top y.below →
      y.top.rightSpine = [] → (reading y.top y.below).2 = pre →
        Stacked (rest.foldl shift y).top
            (rest.foldl shift y).below ∧
          reading (rest.foldl shift y).top
              (rest.foldl shift y).below =
            ((reading y.top y.below).1, pre ++ rest) := by
  induction rest with
  | nil =>
    intro y pre h _ hpre
    rw [List.foldl_nil, List.append_nil, ← hpre]
    exact ⟨h, rfl⟩
  | cons p rest ih =>
    intro y pre h htop hpre
    rw [List.foldl_cons]
    have hs := Stacked.shift y h htop (hb p List.mem_cons_self)
    obtain ⟨hs', hr⟩ := ih (fun p hp => hb p (List.mem_cons_of_mem _ hp)) (y.shift p)
      (pre ++ [p]) hs rfl (by rw [reading_shift, hpre])
    refine ⟨hs', ?_⟩
    rw [hr, reading_shift, List.append_assoc, List.singleton_append]

theorem climb_climbs {x : Literal} {rest : List (Entry ι × Literal)}
    (hb : ∀ p ∈ rest, p.1.bound.isSome) :
    (climb x rest).Climbs ∧ (climb x rest).first = x ∧ (climb x rest).pairs = rest := by
  obtain ⟨hs, hr⟩ := foldl_shift rest hb ⟨.leaf x, []⟩ [] trivial rfl rfl
  rw [climb, finish]
  generalize rest.foldl shift ⟨.leaf x, []⟩ = y at hs hr ⊢
  -- completing every operator begun leaves the tree alone, with what was read
  have hnil : (y.reduceTimes y.below.length).below = [] := by
    rw [below_reduceTimes, List.drop_length]
  have hs' := Stacked.reduceTimes y.below.length y hs
  have hr' := reading_reduceTimes y.below.length y
  rw [hnil] at hs' hr'
  rw [hr] at hr'
  simp only [reading, Prod.mk.injEq, List.nil_append] at hr'
  exact ⟨hs', hr'⟩

section ReadTree

variable {p : Nat}

theorem readTree_below_length : ∀ (T : Infix ι) (below : List (Entry ι × Infix ι)),
    (readTree T below).below.length = T.rightSpine.length + below.length
  | .leaf _, _ => by simp [readTree, Infix.rightSpine]
  | .node o l r, below => by
    rw [readTree, readTree_below_length r, Infix.rightSpine]
    simp only [List.length_cons]
    omega

theorem reduceTimes_readTree : ∀ (T : Infix ι) (below : List (Entry ι × Infix ι)),
    (readTree T below).reduceTimes T.rightSpine.length = ⟨T, below⟩
  | .leaf _, _ => rfl
  | .node o l r, below => by
    rw [readTree, Infix.rightSpine, List.length_cons, reduceTimes_succ', reduceTimes_readTree r]
    rfl

theorem unwind_readTree : ∀ (T : Infix ι) (below : List (Entry ι × Infix ι)),
    (∀ q ∈ T.rightSpine, q.matched.closesBefore p = true) →
      (readTree T below).unwind p = (⟨T, below⟩ : Yard ι).unwind p
  | .leaf _, _, _ => rfl
  | .node o l r, below, h => by
    rw [readTree, unwind_readTree r _ fun q hq => h q (List.mem_cons_of_mem _ hq),
      unwind_closes (h o List.mem_cons_self)]

theorem foldl_shift_readTree : ∀ (T : Infix ι) (below : List (Entry ι × Infix ι)), T.Climbs →
    (∀ q ∈ T.leftSpine, ∀ pl ∈ below.head?, pl.1.Takes q.priority) →
      T.pairs.foldl shift ⟨.leaf T.first, below⟩ = readTree T below
  | .leaf _, _, _, _ => rfl
  | .node o l r, below, ⟨hl, hr, htakes, hends⟩, hbelow => by
    rw [Infix.pairs, List.foldl_append, Infix.first,
      foldl_shift_readTree l below hl fun q hq => hbelow q (List.mem_cons_of_mem _ hq),
      List.foldl_cons]
    -- the operator completes the right spine of its leading operand and no more
    have hunwind : (readTree l below).unwind o.priority = ⟨l, below⟩ := by
      rw [unwind_readTree l below fun q hq => Entry.closesBefore_matched.2 (hends q hq)]
      cases below with
      | nil => rfl
      | cons pl rest =>
        exact unwind_holds (Entry.closesBefore_matched_eq_false (hbelow o List.mem_cons_self pl rfl))
    rw [shift, hunwind]
    exact foldl_shift_readTree r ((o, l) :: below) hr fun q hq pl hpl => by
      cases hpl
      exact htakes q hq

theorem climb_of_climbs {T : Infix ι} (hT : T.Climbs) : climb T.first T.pairs = T := by
  have h : T.pairs.foldl shift ⟨.leaf T.first, []⟩ = readTree T [] :=
    foldl_shift_readTree T [] hT fun _ _ _ h => nomatch h
  rw [climb, h, finish,
    readTree_below_length, List.length_nil, Nat.add_zero, reduceTimes_readTree]

end ReadTree

theorem climbs_unique {T T' : Infix ι} (hT : T.Climbs) (hT' : T'.Climbs)
    (hfirst : T.first = T'.first) (hpairs : T.pairs = T'.pairs) : T = T' := by
  rw [← climb_of_climbs hT, ← climb_of_climbs hT', hfirst, hpairs]

end Yard

end Mixfix
