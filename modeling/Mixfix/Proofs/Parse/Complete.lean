import Mixfix.Proofs.Parse.Safety
import Mixfix.Proofs.Syntax.Placement

namespace Mixfix

namespace SearchM

variable {ι α β : Type}

/-- From every frontier, `m` returns `a`, having set `pushed` aside before the alternatives there
and changed nothing else but the counters. -/
def Returns (m : SearchM ι α) (a : α) (pushed : List (Branch ι)) : Prop :=
  ∀ fr : Frontier ι, ∃ stats, m.run.run fr = (.ok a, { branches := pushed ++ fr.branches, stats })

variable {m : SearchM ι α} {a : α} {p q : List (Branch ι)}

theorem Returns.pure (a : α) : Returns (pure a : SearchM ι α) a [] :=
  fun fr => ⟨fr.stats, rfl⟩

theorem Returns.bind {f : α → SearchM ι β} {b : β} (hm : Returns m a p) (hf : Returns (f a) b q) :
    Returns (m >>= f) b (q ++ p) := by
  intro fr
  obtain ⟨s₁, h₁⟩ := hm fr
  obtain ⟨s₂, h₂⟩ := hf { branches := p ++ fr.branches, stats := s₁ }
  refine ⟨s₂, ?_⟩
  simp only [ExceptT.run_bind, StateT.run_bind, h₁]
  rw [List.append_assoc]
  exact h₂

theorem Returns.then {f : α → SearchM ι β} {b : β} (hm : Returns m a [])
    (hf : Returns (f a) b q) : Returns (m >>= f) b q := by
  simpa using hm.bind hf

theorem Returns.map {f : α → β} (hm : Returns m a p) : Returns (f <$> m) (f a) p := by
  intro fr
  obtain ⟨s, h⟩ := hm fr
  refine ⟨s, ?_⟩
  simp only [ExceptT.run_map, StateT.run_map, h]
  rfl

end SearchM

namespace Env

open SearchM

variable {ι : Type} {env : Env ι} {top : Pending ι} {below : List (Pending ι)}

theorem reduce_returns (hp : env.pending = top :: below)
    (hn : top.entry.arity ≤ env.operands.length) :
    Returns env.reduce { env with
      operands := .node top.entry.operator.id (env.operands.take top.entry.arity).reverse ::
        env.operands.drop top.entry.arity
      pending := below } [] := by
  intro fr
  refine ⟨{ fr.stats with reductions := fr.stats.reductions + 1 }, ?_⟩
  simp [Env.reduce, hp, Nat.not_lt.mpr hn]
  rfl

theorem reduceTimes_add (m n : Nat) (env : Env ι) :
    env.reduceTimes (m + n) = env.reduceTimes m >>= fun e => e.reduceTimes n := by
  induction m generalizing env with
  | zero => simp [reduceTimes]
  | succ m ih =>
    rw [Nat.add_right_comm, reduceTimes, reduceTimes]
    simp only [ih, bind_assoc]

theorem advance_hole (hp : env.pending = top :: below) (hk : top.next < top.entry.restEnd)
    {a : Option String} (hh : top.entry.operator.pattern[top.next]? = some (.hole a)) :
    Returns env.advance
      { env with pending := { top with next := top.next + 1 } :: below, mode := .expectOperand }
      [] := by
  intro fr
  refine ⟨fr.stats, ?_⟩
  simp [Env.advance, hp, hk, hh]
  rfl

theorem advance_trailing (hp : env.pending = top :: below) (hk : top.entry.restEnd ≤ top.next)
    (hb : top.entry.bound.isSome) :
    Returns env.advance { env with mode := .expectOperand } [] := by
  intro fr
  refine ⟨fr.stats, ?_⟩
  simp [Env.advance, hp, Nat.not_lt.mpr hk, hb]
  rfl

theorem advance_complete (hp : env.pending = top :: below) (hk : top.entry.restEnd ≤ top.next)
    (hb : top.entry.bound = none) (hn : top.entry.arity ≤ env.operands.length) :
    Returns env.advance { env with
      operands := .node top.entry.operator.id (env.operands.take top.entry.arity).reverse ::
        env.operands.drop top.entry.arity
      pending := below, mode := .afterOperand } [] := by
  intro fr
  obtain ⟨st, hr⟩ := reduce_returns hp hn fr
  refine ⟨st, ?_⟩
  simp only [Env.advance, hp, Nat.not_lt.mpr hk, if_false, hb, Option.isSome_none,
    Bool.false_eq_true]
  simp only [ExceptT.run_bind, StateT.run_bind, hr]
  rfl

theorem consume_eq (hp : env.pending = top :: below) :
    env.consume = advance { env with
      pending := { top with next := top.next + 1 } :: below
      cursor := env.cursor + 1 } := by
  simp [consume, hp]

theorem enter_of_ne (hm : env.mode ≠ .afterOperand) (e : Entry ι) :
    env.enter e =
      advance { env with pending := ⟨e, e.lead + 1⟩ :: env.pending, cursor := env.cursor + 1 } := by
  simp [enter, hm]

theorem enter_of_afterOperand (hm : env.mode = .afterOperand) (e : Entry ι) :
    env.enter e = env.unwind e.priority >>= fun env' =>
      advance { env' with pending := ⟨e, e.lead + 1⟩ :: env'.pending, cursor := env'.cursor + 1 } := by
  simp [enter, hm]

theorem fork_returns {e : Entry ι} {rest : List (Entry ι)} {x : Env ι}
    (he : Returns (env.enter e) x []) : Returns (env.fork (e :: rest)) x (rest.map (⟨env, ·⟩)) := by
  intro fr
  obtain ⟨st, h⟩ := he
    ⟨rest.map (⟨env, ·⟩) ++ fr.branches, { fr.stats with forks := fr.stats.forks + rest.length }⟩
  refine ⟨st, ?_⟩
  simp only [fork, ExceptT.run_bind, StateT.run_bind]
  exact h

variable {g : Groups ι} {tokens : Array Token} {tok : Token}

theorem step_literal {lit : Literal} (hm : env.mode = .expectOperand)
    (htok : tokens[env.cursor]? = some tok) (hval : tok.value = lit.value) :
    Returns (env.step g tokens) (.next (env.pushLiteral lit)) [] := by
  cases lit <;>
  · simp only [Literal.value] at hval
    simp only [step, htok, hm, hval]
    exact Returns.pure _

theorem step_open {s : String} {e : Entry ι} {rest : List (Entry ι)} {x : Env ι}
    (hm : env.mode = .expectOperand) (htok : tokens[env.cursor]? = some tok)
    (hval : tok.value = .sign s) (hg : g.opening? s = some (e :: rest))
    (he : Returns (env.enter e) x []) :
    Returns (env.step g tokens) (.next x) (rest.map (⟨env, ·⟩)) := by
  simp only [step, htok, hm, hval, openWith, hg]
  exact (fork_returns he).map

theorem step_continue {s : String} {e : Entry ι} {rest : List (Entry ι)} {x : Env ι}
    (hm : env.mode = .afterOperand) (htok : tokens[env.cursor]? = some tok)
    (hval : tok.value = .sign s) (hob : ∀ d, obligation env.pending ≠ some (d, s))
    (hg : g.continuing? s = some (e :: rest)) (he : Returns (env.enter e) x []) :
    Returns (env.step g tokens) (.next x) (rest.map (⟨env, ·⟩)) := by
  have hc : continueWith g env s = continueWithOperators g env s := by
    unfold continueWith
    split
    · rename_i d s' hs
      have hne : s' ≠ s := fun h => hob d (h ▸ hs)
      simp [hne]
    · rfl
  simp only [step, htok, hm, hval, hc, continueWithOperators, hg]
  exact (fork_returns he).map

theorem step_close {s : String} {d : Nat} {x y : Env ι} (hm : env.mode = .afterOperand)
    (htok : tokens[env.cursor]? = some tok) (hval : tok.value = .sign s)
    (hob : obligation env.pending = some (d, s)) (hr : Returns (env.reduceTimes d) x [])
    (hc : Returns x.consume y []) : Returns (env.step g tokens) (.next y) [] := by
  simp only [step, htok, hm, hval, continueWith, hob, beq_self_eq_true, if_true]
  refine hr.then ?_
  exact hc.then (Returns.pure _)

theorem step_finish {x : Env ι} {tree : Tree ι} (hm : env.mode = .afterOperand)
    (htok : tokens[env.cursor]? = none) (hob : obligation env.pending = none)
    (hr : Returns (env.reduceTimes env.pending.length) x []) (hx : x.operands = [tree]) :
    Returns (env.step g tokens) (.accept tree) [] := by
  simp only [step, htok, finish, hm, hob]
  refine hr.then ?_
  simp only [hx]
  exact Returns.pure _

theorem step_stuck (hm : env.mode = .expectOperand)
    (h : tokens[env.cursor]? = none ∨
      ∃ tok s, tokens[env.cursor]? = some tok ∧ tok.value = .sign s ∧ g.opening? s = none) :
    ∃ f, Returns (env.step g tokens) (.fail f) [] := by
  rcases h with h | ⟨tok, s, htok, hval, hg⟩
  · exact ⟨_, by simp only [step, h, finish, hm]; exact Returns.pure _⟩
  · simp only [step, htok, hm, hval, openWith, hg]
    split
    · exact ⟨_, Returns.pure _⟩
    · exact ⟨_, Returns.pure _⟩

end Env

/-- A tree read to its end with its right spine not yet reduced. Each operator on the spine that
takes a trailing operand is pending, the innermost first, with all its slots matched; the operands
above those of the context are the other arguments of the spine's nodes, the last read first,
under the node that ends the spine. -/
inductive Unreduced {ι : Type} [DecidableEq ι] (t : Table ι) :
    Tree ι → List (Pending ι) → List (Tree ι) → Prop
  | whole (tree : Tree ι) : Unreduced t tree [] [tree]
  | trailing {e : Entry ι} {b : Nat} {init : List (Tree ι)} {last : Tree ι}
      {ps : List (Pending ι)} {os : List (Tree ι)} :
      t.find? e.operator.id = some e → e.bound = some b → init.length + 1 = e.arity →
      Unreduced t last ps os →
      Unreduced t (.node e.operator.id (init ++ [last])) (ps ++ [⟨e, e.restEnd⟩])
        (os ++ init.reverse)

namespace Unreduced

open SearchM

variable {ι : Type} [DecidableEq ι] {t : Table ι} {tree : Tree ι} {ps : List (Pending ι)}
  {os : List (Tree ι)}

theorem reduceTimes (h : Unreduced t tree ps os) {env : Env ι} {P : List (Pending ι)}
    {O : List (Tree ι)} (hp : env.pending = ps ++ P) (ho : env.operands = os ++ O) :
    Returns (env.reduceTimes ps.length) { env with pending := P, operands := tree :: O } [] := by
  induction h generalizing env P O with
  | whole tree =>
    obtain ⟨c, o, p, m⟩ := env
    simp only [List.nil_append, List.singleton_append] at hp ho
    subst hp ho
    exact Returns.pure _
  | trailing hf hb hn hlast ih =>
    rename_i e b init last ps os
    rw [List.length_append, List.length_singleton, Env.reduceTimes_add]
    refine (ih (P := ⟨e, e.restEnd⟩ :: P) (O := init.reverse ++ O) (by simp [hp])
      (by simp [ho])).then ?_
    have hred := @Env.reduce_returns _ { env with
      pending := ⟨e, e.restEnd⟩ :: P
      operands := last :: (init.reverse ++ O) } _ _ rfl (by simp; omega)
    rw [Env.reduceTimes]
    refine hred.then ?_
    have htake : (last :: (init.reverse ++ O)).take e.arity = last :: init.reverse := by
      rw [← hn, List.take_succ_cons, List.take_left' (by simp)]
    have hdrop : (last :: (init.reverse ++ O)).drop e.arity = O := by
      rw [← hn, List.drop_succ_cons, List.drop_left' (by simp)]
    simp only [htake, hdrop, List.reverse_cons, List.reverse_reverse]
    exact Returns.pure _

theorem pending_bound (h : Unreduced t tree ps os) :
    ∀ q ∈ ps, q.next = q.entry.restEnd ∧ ∃ b, q.entry.bound = some b ∧ b ≤ tree.reach t := by
  induction h with
  | whole => simp
  | trailing hf hb hn hlast ih =>
    rename_i e b init last ps os
    have hreach : (Tree.node e.operator.id (init ++ [last])).reach t = max b (last.reach t) := by
      rw [Tree.reach, hf]
      simp [hb, Tree.reachLast_append]
    intro q hq
    rw [hreach]
    rcases List.mem_append.mp hq with hq | hq
    · obtain ⟨hnext, b', hb', hle⟩ := ih q hq
      exact ⟨hnext, b', hb', le_max_of_le_right hle⟩
    · obtain rfl := List.mem_singleton.mp hq
      exact ⟨rfl, b, hb, le_max_left _ _⟩

theorem closesBefore (h : Unreduced t tree ps os) {p : Nat} (hp : tree.reach t ≤ p) :
    ∀ q ∈ ps, q.closesBefore p = true := by
  intro q hq
  obtain ⟨hnext, b, hb, hle⟩ := h.pending_bound q hq
  simp [Pending.closesBefore, hb, hnext]
  omega

theorem slotSign (ht : t.Valid) (h : Unreduced t tree ps os) : ∀ q ∈ ps, q.slotSign = none := by
  induction h with
  | whole => simp
  | trailing hf hb hn hlast ih =>
    rename_i e b init last ps os
    intro q hq
    rcases List.mem_append.mp hq with hq | hq
    · exact ih q hq
    · obtain rfl := List.mem_singleton.mp hq
      exact Pending.Trailing.slotSign_eq_none (ht.entries _ (List.mem_of_find?_eq_some hf))
        ⟨rfl, by simp [hb]⟩

theorem unwind (h : Unreduced t tree ps os) {env : Env ι} {P : List (Pending ι)}
    {O : List (Tree ι)} {p : Nat} (hr : tree.reach t ≤ p)
    (hP : ∀ q ∈ P.head?, q.closesBefore p = false) (hp : env.pending = ps ++ P)
    (ho : env.operands = os ++ O) :
    Returns (env.unwind p) { env with pending := P, operands := tree :: O } [] := by
  have hlen : (env.pending.takeWhile (Pending.closesBefore p)).length = ps.length := by
    rw [hp, List.takeWhile_append_of_pos (h.closesBefore hr)]
    cases P with
    | nil => simp
    | cons q qs => simp [hP q rfl]
  unfold Env.unwind
  rw [hlen]
  exact h.reduceTimes hp ho

end Unreduced

theorem obligation_append {ι : Type} {ps : List (Pending ι)} (hs : ∀ q ∈ ps, q.slotSign = none)
    (P : List (Pending ι)) :
    obligation (ps ++ P) = (obligation P).map fun (d, s) => (d + ps.length, s) := by
  induction ps with
  | nil => simp
  | cons q qs ih =>
    rw [List.cons_append, obligation, hs q (by simp), ih (fun q' hq' => hs q' (by simp [hq']))]
    cases obligation P <;> simp [Nat.add_assoc]

namespace Parser

open SearchM

variable {ι : Type} {g : Groups ι} {tokens : Array Token} {env e e' : Env ι} {tree : Tree ι}

theorem search_next_run {fuel : Nat} {best : Option SyntaxError} {fr fr' : Frontier ι}
    (h : (env.step g tokens).run.run fr = (.ok (.next e), fr')) :
    (search g tokens (fuel + 1) env best).run.run fr = (search g tokens fuel e best).run.run fr' := by
  rw [search]
  simp only [ExceptT.run_bind, StateT.run_bind, h]
  rfl

theorem search_accept_run {fuel : Nat} {best : Option SyntaxError} {fr fr' : Frontier ι}
    (h : (env.step g tokens).run.run fr = (.ok (.accept tree), fr')) :
    (search g tokens (fuel + 1) env best).run.run fr = (.ok (.ok tree), fr') := by
  rw [search]
  simp only [ExceptT.run_bind, StateT.run_bind, h]
  rfl

theorem search_fail_run {fuel : Nat} {best : Option SyntaxError} {fr fr' fr'' : Frontier ι}
    {f : SyntaxFault} {b : Branch ι} {rest : List (Branch ι)}
    (h : (env.step g tokens).run.run fr = (.ok (.fail f), fr')) (hb : fr'.branches = b :: rest)
    (he : (b.env.enter b.entry).run.run
      { fr' with branches := rest, stats.backtracks := fr'.stats.backtracks + 1 } = (.ok e', fr'')) :
    (search g tokens (fuel + 1) env best).run.run fr =
      (search g tokens fuel e' (some (keepBest best (failureAt tokens env f)))).run.run fr'' := by
  obtain ⟨brs, st⟩ := fr'
  simp only at hb
  subst hb
  have key : (search g tokens (fuel + 1) env best).run.run fr =
      (b.env.enter b.entry >>= fun e => search g tokens fuel e
        (some (keepBest best (failureAt tokens env f)))).run.run
        { branches := rest, stats := { st with backtracks := st.backtracks + 1 } } := by
    rw [search]
    simp only [ExceptT.run_bind, StateT.run_bind, h]
    rfl
  rw [key]
  simp only [ExceptT.run_bind, StateT.run_bind]
  rw [he]
  rfl

/-- The search from `env` accepts `tree`, from every frontier and with any failure reported so far,
when given two steps for each token left. -/
def Accepts (g : Groups ι) (tokens : Array Token) (env : Env ι) (tree : Tree ι) : Prop :=
  ∀ fuel best fr, 2 * (tokens.size - env.cursor) < fuel →
    ((search g tokens fuel env best).run.run fr).1 = .ok (.ok tree)

theorem Accepts.of_next {p : List (Branch ι)} (hs : Returns (env.step g tokens) (.next e) p)
    (hc : e.cursor = env.cursor + 1) (hlt : env.cursor < tokens.size)
    (ha : Accepts g tokens e tree) : Accepts g tokens env tree := by
  intro fuel best fr hf
  obtain ⟨fuel, rfl⟩ : ∃ k, fuel = k + 1 := ⟨fuel - 1, by omega⟩
  obtain ⟨stats, hrun⟩ := hs fr
  rw [search_next_run hrun]
  exact ha fuel best _ (by rw [hc]; omega)

theorem Accepts.of_accept {p : List (Branch ι)} (hs : Returns (env.step g tokens) (.accept tree) p) :
    Accepts g tokens env tree := by
  intro fuel best fr hf
  obtain ⟨fuel, rfl⟩ : ∃ k, fuel = k + 1 := ⟨fuel - 1, by omega⟩
  obtain ⟨stats, hrun⟩ := hs fr
  rw [search_accept_run hrun]

theorem Accepts.of_retry {b : Branch ι} {f : SyntaxFault}
    (hs : Returns (env.step g tokens) (.next e) [b]) (hf : Returns (e.step g tokens) (.fail f) [])
    (hb : Returns (b.env.enter b.entry) e' []) (hc : e'.cursor = env.cursor + 1)
    (hlt : env.cursor < tokens.size) (ha : Accepts g tokens e' tree) : Accepts g tokens env tree := by
  intro fuel best fr hfuel
  obtain ⟨fuel, rfl⟩ : ∃ k, fuel = k + 2 := ⟨fuel - 2, by omega⟩
  obtain ⟨s₁, h₁⟩ := hs fr
  obtain ⟨s₂, h₂⟩ := hf { branches := [b] ++ fr.branches, stats := s₁ }
  obtain ⟨s₃, h₃⟩ := hb
    { branches := fr.branches, stats := { s₂ with backtracks := s₂.backtracks + 1 } }
  rw [search_next_run h₁, search_fail_run h₂ (by simp) h₃]
  exact ha fuel _ _ (by rw [hc]; omega)

/-- Whatever the search from `env'` accepts, the search from `env` accepts. -/
def Leads (g : Groups ι) (tokens : Array Token) (env env' : Env ι) : Prop :=
  ∀ tree, Accepts g tokens env' tree → Accepts g tokens env tree

theorem Leads.refl (env : Env ι) : Leads g tokens env env := fun _ h => h

theorem Leads.trans {e'' : Env ι} (h₁ : Leads g tokens env e') (h₂ : Leads g tokens e' e'') :
    Leads g tokens env e'' := fun tree h => h₁ tree (h₂ tree h)

theorem token_of_drop {c : Nat} {v : TokenValue} {rest : List TokenValue}
    (h : (tokens.toList.map (·.value)).drop c = v :: rest) :
    ∃ tok, tokens[c]? = some tok ∧ tok.value = v ∧ c < tokens.size ∧
      (tokens.toList.map (·.value)).drop (c + 1) = rest := by
  have hc : c < tokens.size := by
    have := congrArg List.length h
    simp at this
    omega
  refine ⟨tokens[c], by simp [hc], ?_, hc, ?_⟩
  · have := congrArg List.head? h
    simpa [List.head?_drop, hc] using this
  · rw [← List.drop_drop, h]
    rfl

theorem token_none_of_drop {c : Nat} (h : (tokens.toList.map (·.value)).drop c = []) :
    tokens[c]? = none := by
  have := congrArg List.length h
  simp at this
  simp only [getElem?_eq_none_iff]
  omega

end Parser

end Mixfix
