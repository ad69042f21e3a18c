import Mixfix.Proofs.Syntax.Climbing
import Mixfix.Proofs.Parse.Complete

namespace Mixfix

namespace SearchM

variable {ι α β : Type}

/-- From every frontier, `m` returns `a`, sets nothing aside and changes no counter but the nodes
built. -/
def Plain (m : SearchM ι α) (a : α) : Prop :=
  ∀ fr : Frontier ι, ∃ n,
    m.run.run fr = (.ok a, { fr with stats := { fr.stats with reductions := n } })

theorem Plain.pure (a : α) : Plain (pure a : SearchM ι α) a :=
  fun fr => ⟨fr.stats.reductions, rfl⟩

theorem Plain.bind {m : SearchM ι α} {a : α} {f : α → SearchM ι β} {b : β} (hm : Plain m a)
    (hf : Plain (f a) b) : Plain (m >>= f) b := by
  intro fr
  obtain ⟨n₁, h₁⟩ := hm fr
  obtain ⟨n₂, h₂⟩ := hf { fr with stats := { fr.stats with reductions := n₁ } }
  refine ⟨n₂, ?_⟩
  simp only [ExceptT.run_bind, StateT.run_bind, h₁]
  exact h₂

theorem Plain.map {m : SearchM ι α} {a : α} {f : α → β} (hm : Plain m a) :
    Plain (f <$> m) (f a) := by
  intro fr
  obtain ⟨n, h⟩ := hm fr
  refine ⟨n, ?_⟩
  simp only [ExceptT.run_map, StateT.run_map, h]
  rfl

end SearchM

namespace Entry

variable {ι : Type} {e : Entry ι}

/-- A binary operator: a chain whose pattern is its sign and a hole on a left-associative level,
or a hole and its sign on a right-associative one; its operand outside the pattern stands on the
other side of the sign. -/
def Binary (e : Entry ι) : Prop :=
  e.operator.kind = .chain ∧
    ((e.assoc = .left ∧ ∃ lim, e.operator.pattern = [.sign e.firstSign, .hole lim]) ∨
      (e.assoc = .right ∧ ∃ lim, e.operator.pattern = [.hole lim, .sign e.firstSign]))

theorem Binary.shape (hv : e.Valid) (hb : e.Binary) :
    e.arity = 2 ∧ e.lead + 1 = e.restEnd ∧ e.bound.isSome ∧ e.matched.slotSign = none := by
  have hlead := hv.lead
  have hrest := hv.restEnd
  have harity := hv.arity
  have hbound := hv.bound
  obtain ⟨hk, ⟨ha, lim, hp⟩ | ⟨ha, lim, hp⟩⟩ := hb
  · simp only [hp, leadSign, Option.some.injEq, Prod.mk.injEq] at hlead
    simp only [closesWithHole, hp, List.getLast?_cons_cons, List.getLast?_singleton,
      Option.map_some, Slot.isHole, Option.getD_some, if_true, List.length_cons,
      List.length_nil] at hrest
    simp only [hp, hk, List.countP_cons, List.countP_nil, Slot.isHole] at harity
    simp only [endsWithExpression, hk, ha, hp, List.getLast?_cons_cons, List.getLast?_singleton,
      Option.map_some, Slot.isHole, Option.getD_some] at hbound
    refine ⟨by simpa using harity, by omega, by simpa using hbound, ?_⟩
    simp [matched, Pending.slotSign, hp, hrest, Slot.sign?]
  · simp only [hp, leadSign, Option.map_some, Option.some.injEq, Prod.mk.injEq] at hlead
    simp only [closesWithHole, hp, List.getLast?_cons_cons, List.getLast?_singleton,
      Option.map_some, Slot.isHole, Option.getD_some, Bool.false_eq_true, if_false,
      List.length_cons, List.length_nil] at hrest
    simp only [hp, hk, List.countP_cons, List.countP_nil, Slot.isHole] at harity
    simp only [endsWithExpression, hk, ha] at hbound
    refine ⟨by simpa using harity, by omega, by simpa using hbound, ?_⟩
    simp [matched, Pending.slotSign, hp, hrest]

end Entry

namespace Yard

open SearchM

variable {ι : Type}

/-- The line of the search that holds what the yard holds, at cursor `c`, after an operand. -/
def env (y : Yard ι) (c : Nat) : Env ι :=
  { cursor := c
    operands := y.top.toTree :: y.below.map fun pl => pl.2.toTree
    pending := y.below.map fun pl => pl.1.matched
    mode := .afterOperand }

/-- The line after the sign of `o`: the operators `o` closes completed, `o` begun, and an
operand due. -/
def waiting (y : Yard ι) (o : Entry ι) (c : Nat) : Env ι :=
  { (y.unwind o.priority).env (c + 1) with
    pending := o.matched :: ((y.unwind o.priority).env (c + 1)).pending
    mode := .expectOperand }

theorem waiting_pushLiteral (y : Yard ι) (o : Entry ι) (x : Literal) (c : Nat) :
    (y.waiting o c).pushLiteral x = (y.shift (o, x)).env (c + 2) := rfl

variable {y : Yard ι} {c : Nat}

theorem mem_below_unwind {p : Nat} {pl : Entry ι × Infix ι} (h : pl ∈ (y.unwind p).below) :
    pl ∈ y.below := by
  rw [unwind, below_reduceTimes] at h
  exact List.mem_of_mem_drop h

theorem reduce_plain {top l : Infix ι} {q : Entry ι} {rest : List (Entry ι × Infix ι)}
    (ha : q.arity = 2) :
    Plain (Yard.env ⟨top, (q, l) :: rest⟩ c).reduce (Yard.env ⟨.node q l top, rest⟩ c) := by
  intro fr
  refine ⟨fr.stats.reductions + 1, ?_⟩
  simp [Env.reduce, env, Entry.matched, ha, Infix.toTree]
  rfl

theorem reduceTimes_plain : ∀ (n : Nat) (y : Yard ι), (∀ pl ∈ y.below, pl.1.arity = 2) →
    n ≤ y.below.length → Plain ((y.env c).reduceTimes n) ((y.reduceTimes n).env c)
  | 0, _, _, _ => Plain.pure _
  | n + 1, ⟨_, []⟩, _, hn => absurd hn (by simp)
  | n + 1, ⟨top, (q, l) :: rest⟩, ha, hn => by
    rw [Env.reduceTimes]
    exact (reduce_plain (ha _ List.mem_cons_self)).bind
      (reduceTimes_plain n ⟨.node q l top, rest⟩ (fun pl hpl => ha pl (List.mem_cons_of_mem _ hpl))
        (by simp only [List.length_cons] at hn; exact Nat.le_of_succ_le_succ hn))

theorem unwind_plain (ha : ∀ pl ∈ y.below, pl.1.arity = 2) (p : Nat) :
    Plain ((y.env c).unwind p) ((y.unwind p).env c) := by
  have hlen : ((y.env c).pending.takeWhile (Pending.closesBefore p)).length =
      (y.below.takeWhile fun pl => pl.1.matched.closesBefore p).length := by
    simp only [env, List.takeWhile_map, List.length_map]
    rfl
  unfold Env.unwind Yard.unwind
  rw [hlen]
  exact reduceTimes_plain _ y ha (List.takeWhile_prefix _).length_le

theorem advance_matched {env : Env ι} {o : Entry ι} {P : List (Pending ι)}
    (hp : env.pending = o.matched :: P) (hb : o.bound.isSome) :
    Plain env.advance { env with mode := .expectOperand } := by
  intro fr
  refine ⟨fr.stats.reductions, ?_⟩
  simp [Env.advance, hp, Entry.matched, hb]
  rfl

theorem enter_plain (ha : ∀ pl ∈ y.below, pl.1.arity = 2) {o : Entry ι}
    (hlead : o.lead + 1 = o.restEnd) (hb : o.bound.isSome) :
    Plain ((y.env c).enter o) (y.waiting o c) := by
  rw [Env.enter_of_afterOperand rfl]
  refine (unwind_plain ha o.priority).bind ?_
  rw [hlead]
  exact advance_matched rfl hb

theorem fork_plain {env x : Env ι} {o : Entry ι} (he : Plain (env.enter o) x) :
    Plain (env.fork [o]) x := by
  intro fr
  obtain ⟨n, h⟩ := he fr
  refine ⟨n, ?_⟩
  simp only [Env.fork, ExceptT.run_bind, StateT.run_bind]
  exact h

theorem obligation_env (hs : ∀ pl ∈ y.below, pl.1.matched.slotSign = none) :
    obligation (y.env c).pending = none := by
  have hs' : ∀ q ∈ (y.env c).pending, q.slotSign = none := by
    intro q hq
    obtain ⟨pl, hpl, rfl⟩ := List.mem_map.1 hq
    exact hs pl hpl
  have h := obligation_append hs' []
  rw [List.append_nil] at h
  rw [h]
  rfl

section Step

variable {g : Groups ι} {tokens : Array Token} {tok : Token}

theorem step_literal_plain (env : Env ι) {lit : Literal} (hm : env.mode = .expectOperand)
    (htok : tokens[env.cursor]? = some tok) (hval : tok.value = lit.value) :
    Plain (env.step g tokens) (.next (env.pushLiteral lit)) := by
  cases lit <;>
  · simp only [Literal.value] at hval
    simp only [Env.step, htok, hm, hval]
    exact Plain.pure _

theorem step_sign_plain {o : Entry ι}
    (hs : ∀ pl ∈ y.below, pl.1.arity = 2 ∧ pl.1.matched.slotSign = none)
    (htok : tokens[c]? = some tok) (hval : tok.value = .sign o.firstSign)
    (hg : g.continuing? o.firstSign = some [o]) (hlead : o.lead + 1 = o.restEnd)
    (hb : o.bound.isSome) :
    Plain ((y.env c).step g tokens) (.next (y.waiting o c)) := by
  have htok' : tokens[(y.env c).cursor]? = some tok := htok
  have hm : (y.env c).mode = .afterOperand := rfl
  have hc : Env.continueWith g (y.env c) o.firstSign =
      Env.continueWithOperators g (y.env c) o.firstSign := by
    simp only [Env.continueWith, obligation_env fun pl hpl => (hs pl hpl).2]
  simp only [Env.step, htok', hm, hval, hc, Env.continueWithOperators, hg]
  exact (fork_plain (enter_plain (fun pl hpl => (hs pl hpl).1) hlead hb)).map

theorem step_finish_plain (hs : ∀ pl ∈ y.below, pl.1.arity = 2 ∧ pl.1.matched.slotSign = none)
    (htok : tokens[c]? = none) :
    Plain ((y.env c).step g tokens) (.accept y.finish.top.toTree) := by
  have htok' : tokens[(y.env c).cursor]? = none := htok
  have hm : (y.env c).mode = .afterOperand := rfl
  have hlen : (y.env c).pending.length = y.below.length := List.length_map _
  simp only [Env.step, htok', Env.finish, hm, obligation_env fun pl hpl => (hs pl hpl).2]
  rw [hlen]
  refine (reduceTimes_plain _ y (fun pl hpl => (hs pl hpl).1) (Nat.le_refl _)).bind ?_
  have hx : ((y.reduceTimes y.below.length).env c).operands = [y.finish.top.toTree] := by
    simp only [env, below_reduceTimes, List.drop_length, List.map_nil]
    rfl
  simp only [hx]
  exact Plain.pure _

theorem search_feed : ∀ (rest : List (Entry ι × Literal)) (y : Yard ι) (c fuel : Nat)
    (best : Option SyntaxError) (fr : Frontier ι),
    (∀ pl ∈ y.below, pl.1.Valid ∧ pl.1.Binary) →
    (∀ p ∈ rest, g.continuing? p.1.firstSign = some [p.1] ∧ p.1.Valid ∧ p.1.Binary) →
    (tokens.toList.map (·.value)).drop c =
      rest.flatMap (fun p => [.sign p.1.firstSign, p.2.value]) →
    2 * rest.length < fuel →
    ∃ n, (Parser.search g tokens fuel (y.env c) best).run.run fr =
      (.ok (.ok (rest.foldl shift y).finish.top.toTree),
        { fr with stats := { fr.stats with reductions := n } })
  | [], y, c, fuel, best, fr, hy, _, hdrop, hf => by
    obtain ⟨fuel, rfl⟩ : ∃ k, fuel = k + 1 := ⟨fuel - 1, by simp at hf; omega⟩
    have hs : ∀ pl ∈ y.below, pl.1.arity = 2 ∧ pl.1.matched.slotSign = none := fun pl hpl =>
      have h := Entry.Binary.shape (hy pl hpl).1 (hy pl hpl).2
      ⟨h.1, h.2.2.2⟩
    obtain ⟨n, hrun⟩ := step_finish_plain (g := g) hs (Parser.token_none_of_drop hdrop) fr
    exact ⟨n, Parser.search_accept_run hrun⟩
  | (o, x) :: rest, y, c, fuel, best, fr, hy, hrest, hdrop, hf => by
    obtain ⟨fuel, rfl⟩ : ∃ k, fuel = k + 2 := ⟨fuel - 2, by simp at hf; omega⟩
    simp only [List.flatMap_cons, List.cons_append, List.nil_append] at hdrop
    obtain ⟨tok, htok, hval, -, hdrop₁⟩ := Parser.token_of_drop hdrop
    obtain ⟨tok', htok', hval', -, hdrop₂⟩ := Parser.token_of_drop hdrop₁
    obtain ⟨hg, hv, hb⟩ := hrest (o, x) List.mem_cons_self
    obtain ⟨-, hlead, hbound, -⟩ := Entry.Binary.shape hv hb
    have hs : ∀ pl ∈ y.below, pl.1.arity = 2 ∧ pl.1.matched.slotSign = none := fun pl hpl =>
      have h := Entry.Binary.shape (hy pl hpl).1 (hy pl hpl).2
      ⟨h.1, h.2.2.2⟩
    obtain ⟨n₁, h₁⟩ := step_sign_plain hs htok hval hg hlead hbound fr
    obtain ⟨n₂, h₂⟩ := step_literal_plain (g := g) (y.waiting o c) rfl htok' hval'
      { fr with stats := { fr.stats with reductions := n₁ } }
    rw [waiting_pushLiteral] at h₂
    have hy' : ∀ pl ∈ (y.shift (o, x)).below, pl.1.Valid ∧ pl.1.Binary := by
      intro pl hpl
      rcases List.mem_cons.1 hpl with rfl | hpl
      · exact ⟨hv, hb⟩
      · exact hy pl (mem_below_unwind hpl)
    obtain ⟨n₃, h₃⟩ := search_feed rest (y.shift (o, x)) (c + 2) fuel best
      { fr with stats := { fr.stats with reductions := n₂ } } hy'
      (fun p hp => hrest p (List.mem_cons_of_mem _ hp)) hdrop₂
      (by simp only [List.length_cons] at hf; omega)
    refine ⟨n₃, ?_⟩
    rw [Parser.search_next_run h₁, Parser.search_next_run h₂, h₃]
    rfl

end Step

end Yard

namespace Parser

variable {ι : Type}

theorem parse_of_run {p : Parser ι} {tokens : Array Token} {tree : Tree ι} {fr : Frontier ι}
    (h : (search p.groups tokens (p.fuel tokens) {} none).run.run
      { stats := { tokens := tokens.size } } = (.ok (.ok tree), fr)) :
    p.parse tokens = (.ok tree, fr.stats) := by
  rw [parse_eq_parseLists]
  unfold parseLists
  dsimp only
  rw [h]

theorem size_lt_fuel {t : Table ι} {tokens : Array Token}
    (h : 2 ≤ tokens.size → 1 ≤ t.entries.length) : tokens.size < (ofTable t).fuel tokens := by
  show tokens.size < Nat.pow (t.entries.length + 1) tokens.size + 1
  by_cases hs : 2 ≤ tokens.size
  · have h1 : Nat.pow 2 tokens.size ≤ Nat.pow (t.entries.length + 1) tokens.size :=
      Nat.pow_le_pow_left (by have := h hs; omega) _
    have h2 : tokens.size < Nat.pow 2 tokens.size := Nat.lt_two_pow_self
    omega
  · have h1 : Nat.pow 1 tokens.size ≤ Nat.pow (t.entries.length + 1) tokens.size :=
      Nat.pow_le_pow_left (by omega) _
    have h2 : Nat.pow 1 tokens.size = 1 := Nat.one_pow _
    omega

theorem length_chain (rest : List (Entry ι × Literal)) :
    (rest.flatMap fun p => [TokenValue.sign p.1.firstSign, p.2.value]).length = 2 * rest.length := by
  induction rest with
  | nil => rfl
  | cons p rest ih =>
    rw [List.flatMap_cons, List.length_append, ih, List.length_cons]
    simp only [List.length_cons, List.length_nil]
    omega

/-- For every table built from levels, a chain `x₀ s₁ x₁ … sₙ xₙ` of literals and signs, where
each sign begins after an operand exactly one operator and that one is binary, parses without
forking to the one tree of the chain that climbs: at each node, every operator heading its
trailing operand is below its bound, and its priority reaches the bound of every operator ending
its leading operand. -/
theorem parse_climbs [DecidableEq ι] {levels : List (Level ι)} {t : Table ι}
    (h : Table.ofLevels levels = .ok t) (x : Literal) (rest : List (Entry ι × Literal))
    (hops : ∀ p ∈ rest,
      (Groups.ofTable t).continuing? p.1.firstSign = some [p.1] ∧ p.1.Binary)
    {tokens : Array Token}
    (htok : tokens.toList.map (·.value) =
      x.value :: rest.flatMap fun p => [.sign p.1.firstSign, p.2.value]) :
    ∃ T : Infix ι, ((ofTable t).parse tokens).1 = .ok T.toTree ∧
      ((ofTable t).parse tokens).2.forks = 0 ∧ T.first = x ∧ T.pairs = rest ∧ T.Climbs ∧
      ∀ T' : Infix ι, T'.first = x → T'.pairs = rest → T'.Climbs → T' = T := by
  have ht := Table.ofLevels_valid h
  -- each operator is an entry of the table, so valid, and binary as validation shapes it
  have hrest : ∀ p ∈ rest, (Groups.ofTable t).continuing? p.1.firstSign = some [p.1] ∧
      p.1.Valid ∧ p.1.Binary := by
    intro p hp
    obtain ⟨hg, hb⟩ := hops p hp
    have hmem := ((Groups.continuing_spec hg).2 p.1 (List.mem_singleton_self _)).1
    exact ⟨hg, ht.entries _ hmem, hb⟩
  have hsize : tokens.size = 2 * rest.length + 1 := by
    have hl := congrArg List.length htok
    rw [List.length_map, Array.length_toList, List.length_cons, length_chain] at hl
    omega
  have hfuel : tokens.size < (ofTable t).fuel tokens := by
    refine size_lt_fuel fun h2 => ?_
    obtain ⟨p, hp⟩ : ∃ p, p ∈ rest := by
      cases rest with
      | nil => simp at hsize; omega
      | cons p _ => exact ⟨p, List.mem_cons_self⟩
    exact List.length_pos_of_mem
      ((Groups.continuing_spec (hrest p hp).1).2 p.1 (List.mem_singleton_self _)).1
  obtain ⟨k, hk⟩ : ∃ k, (ofTable t).fuel tokens = k + 1 := ⟨_, rfl⟩
  obtain ⟨tok, htok₀, hval₀, -, hdrop⟩ := token_of_drop (c := 0) (by rw [List.drop_zero]; exact htok)
  obtain ⟨n₁, h₁⟩ := Yard.step_literal_plain (g := Groups.ofTable t) ({} : Env ι) rfl htok₀ hval₀
    { stats := { tokens := tokens.size } }
  obtain ⟨n₂, h₂⟩ := Yard.search_feed rest ⟨.leaf x, []⟩ 1 k none _ (fun _ h => nomatch h) hrest
    hdrop (by omega)
  have hrun := parse_of_run (p := ofTable t) (by
    rw [hk]
    show (search (Groups.ofTable t) tokens (k + 1) {} none).run.run _ = _
    rw [search_next_run h₁]
    exact h₂)
  obtain ⟨hclimbs, hfirst, hpairs⟩ := Yard.climb_climbs fun p hp =>
    (Entry.Binary.shape (hrest p hp).2.1 (hrest p hp).2.2).2.2.1
  refine ⟨Yard.climb x rest, by rw [hrun]; rfl, by rw [hrun], hfirst, hpairs, hclimbs,
    fun T' h₁ h₂ h₃ => ?_⟩
  exact Yard.climbs_unique h₃ hclimbs (h₁.trans hfirst.symm) (h₂.trans hpairs.symm)

theorem differences_climb :
    let o : Entry Calculator.Op :=
      ⟨⟨Calculator.Op.sub, .chain, [.sign "-", .hole none]⟩, 0, .left, 0, "-", 1, 2, some 0⟩
    let rest : List (Entry Calculator.Op × Literal) := [(o, .ident "b"), (o, .ident "c")]
    let tokens : Array Token :=
      #[⟨.ident "a", ⟨⟨0, 0⟩, ⟨0, 1⟩⟩⟩, ⟨.sign "-", ⟨⟨0, 2⟩, ⟨0, 3⟩⟩⟩, ⟨.ident "b", ⟨⟨0, 4⟩, ⟨0, 5⟩⟩⟩,
        ⟨.sign "-", ⟨⟨0, 6⟩, ⟨0, 7⟩⟩⟩, ⟨.ident "c", ⟨⟨0, 8⟩, ⟨0, 9⟩⟩⟩]
    ∃ T : Infix Calculator.Op,
      ((ofTable ⟨[("sum", .left)], [o], ["-"]⟩).parse tokens).1 = .ok T.toTree ∧
        ((ofTable ⟨[("sum", .left)], [o], ["-"]⟩).parse tokens).2.forks = 0 ∧
        T.first = .ident "a" ∧ T.pairs = rest ∧ T.Climbs ∧
        ∀ T' : Infix Calculator.Op, T'.first = .ident "a" → T'.pairs = rest → T'.Climbs → T' = T := by
  intro o rest tokens
  refine parse_climbs ofLevels_difference (.ident "a") rest (fun p hp => ?_) rfl
  simp only [rest, List.mem_cons, List.not_mem_nil, or_false] at hp
  rcases hp with rfl | rfl <;> exact ⟨by decide +kernel, rfl, .inl ⟨rfl, none, rfl⟩⟩

end Parser

end Mixfix
