import Mixfix.Proofs.Parse.Invariant
import Mixfix.Calculator.Op
import Mixfix.Proofs.Parse.Sharing

namespace Mixfix

namespace SearchM

variable {ι α β : Type}

/-- From every frontier that satisfies `inv`, `m` returns a value that satisfies `post` and leaves
a frontier that satisfies `inv`: it breaks no invariant of the search. -/
def Safe (inv : Frontier ι → Prop) (m : SearchM ι α) (post : α → Prop) : Prop :=
  ∀ fr, inv fr → ∃ a fr', m.run.run fr = (.ok a, fr') ∧ post a ∧ inv fr'

variable {inv : Frontier ι → Prop} {m : SearchM ι α} {post q : α → Prop}

theorem Safe.pure {a : α} (h : post a) : Safe inv (pure a) post :=
  fun fr hi => ⟨a, fr, rfl, h, hi⟩

theorem Safe.mono (hm : Safe inv m q) (h : ∀ a, q a → post a) : Safe inv m post := by
  intro fr hi
  obtain ⟨a, fr', hrun, hq, hi'⟩ := hm fr hi
  exact ⟨a, fr', hrun, h a hq, hi'⟩

theorem Safe.bind {f : α → SearchM ι β} {post : β → Prop} (hm : Safe inv m q)
    (hf : ∀ a, q a → Safe inv (f a) post) : Safe inv (m >>= f) post := by
  intro fr hi
  obtain ⟨a, fr', hrun, hq, hi'⟩ := hm fr hi
  obtain ⟨b, fr'', hrun', hp, hi''⟩ := hf a hq fr' hi'
  refine ⟨b, fr'', ?_, hp, hi''⟩
  simp only [ExceptT.run_bind, StateT.run_bind, hrun]
  exact hrun'

theorem Safe.map {f : α → β} {post : β → Prop} (hm : Safe inv m q)
    (h : ∀ a, q a → post (f a)) : Safe inv (f <$> m) post := by
  intro fr hi
  obtain ⟨a, fr', hrun, hq, hi'⟩ := hm fr hi
  refine ⟨f a, fr', ?_, h a hq, hi'⟩
  simp only [ExceptT.run_map, StateT.run_map, hrun]
  rfl

theorem Safe.modify {f : Frontier ι → Frontier ι} (hf : ∀ fr, inv fr → inv (f fr)) :
    Safe inv (modify f : SearchM ι PUnit) fun _ => True :=
  fun fr hi => ⟨⟨⟩, f fr, rfl, trivial, hf fr hi⟩

theorem Safe.get_bind {f : Frontier ι → SearchM ι α} (h : ∀ fr, inv fr → Safe inv (f fr) post) :
    Safe inv (get >>= f) post := by
  intro fr hi
  obtain ⟨a, fr', hrun, hp, hi'⟩ := h fr hi fr hi
  exact ⟨a, fr', hrun, hp, hi'⟩

end SearchM

/-- An alternative set aside: its operator may begin at the token at its cursor. -/
structure Branch.Valid [DecidableEq ι] (t : Table ι) (tokens : Array Token) (b : Branch ι) :
    Prop where
  env : b.env.Valid t tokens
  entry : b.entry ∈ t.entries
  mode : b.env.mode ≠ .expectSign
  side : b.env.mode = .afterOperand ↔ b.entry.startsWithExpression = true
  sign : ∃ tok, tokens[b.env.cursor]? = some tok ∧ tok.value = .sign b.entry.firstSign

theorem Branch.valid_of_group [DecidableEq ι] {t : Table ι} {tokens : Array Token} {env : Env ι}
    {group : List (Entry ι)} {b : Bool} {tok : Token} {s : String} (hv : env.Valid t tokens)
    (hm : env.mode ≠ .expectSign) (hside : env.mode = .afterOperand ↔ b = true)
    (hg : ∀ e ∈ group, e ∈ t.entries ∧ e.startsWithExpression = b ∧ e.firstSign = s)
    (htok : tokens[env.cursor]? = some tok) (hval : tok.value = .sign s) :
    ∀ e ∈ group, Branch.Valid t tokens ⟨env, e⟩ := by
  intro e he
  obtain ⟨hmem, hs, hsign⟩ := hg e he
  exact ⟨hv, hmem, hm, by rw [hs]; exact hside, tok, htok, by rw [hval, hsign]⟩

def Frontier.Valid [DecidableEq ι] (t : Table ι) (tokens : Array Token) (fr : Frontier ι) : Prop :=
  ∀ b ∈ fr.branches, b.Valid t tokens

/-- A tree that fits the table and reads back as the values of the tokens. -/
def Tree.Reads [DecidableEq ι] (t : Table ι) (tokens : Array Token) (tree : Tree ι) : Prop :=
  tree.Fits t ∧ tree.yield t = tokens.toList.map (·.value)

/-- What a step may lead to: a valid environment, or a tree that reads back as the input. -/
def Step.Sound [DecidableEq ι] (t : Table ι) (tokens : Array Token) : Step ι → Prop
  | .next env => env.Valid t tokens
  | .accept tree => tree.Reads t tokens
  | .fail _ => True

namespace Env

open SearchM

variable [DecidableEq ι] {t : Table ι} {tokens : Array Token} {env : Env ι} {p : Pending ι}
  {ps : List (Pending ι)}

theorem reduce_safe (hp : env.pending = p :: ps) (hn : p.entry.arity ≤ env.operands.length) :
    Safe (Frontier.Valid t tokens) env.reduce (· = { env with
      operands := Tree.node p.entry.operator.id (env.operands.take p.entry.arity).reverse ::
        env.operands.drop p.entry.arity
      pending := ps }) := by
  intro fr hi
  refine ⟨_, { fr with stats.reductions := fr.stats.reductions + 1 }, ?_, rfl, hi⟩
  simp [Env.reduce, hp, Nat.not_lt.mpr hn]
  rfl

theorem reduceTimes_safe (ht : t.Valid) :
    ∀ (n : Nat) (env : Env ι), env.Valid t tokens → env.mode = .afterOperand →
      n ≤ env.pending.length → (∀ q ∈ env.pending.take n, q.Trailing) →
      Safe (Frontier.Valid t tokens) (env.reduceTimes n) fun e =>
        e.Valid t tokens ∧ e.mode = .afterOperand ∧ e.pending = env.pending.drop n ∧
          e.cursor = env.cursor
  | 0, env, hv, hm, _, _ => Safe.pure ⟨hv, hm, rfl, rfl⟩
  | n + 1, env, hv, hm, hn, htr => by
    obtain ⟨p, ps, hp⟩ := List.exists_cons_of_length_pos (by omega : 0 < env.pending.length)
    rw [hp] at hn htr
    obtain ⟨hle, hv'⟩ := hv.pop_trailing ht hm hp (htr p (by simp))
    refine Safe.bind (reduce_safe hp hle) ?_
    rintro e rfl
    refine (reduceTimes_safe ht n _ hv' hm (by simp at hn ⊢; omega)
      fun q hq => htr q (by simp [hq])).mono ?_
    rintro e' ⟨hv'', hm', hp', hc'⟩
    exact ⟨hv'', hm', by simp [hp', hp], hc'⟩

theorem unwind_safe (ht : t.Valid) (hv : env.Valid t tokens) (hm : env.mode = .afterOperand)
    (priority : Nat) :
    Safe (Frontier.Valid t tokens) (env.unwind priority) fun e =>
      e.Valid t tokens ∧ e.mode = .afterOperand ∧ e.cursor = env.cursor := by
  have hpre := List.takeWhile_prefix (Pending.closesBefore priority) (l := env.pending)
  have hopen : ∀ q ∈ env.pending, q.Open := by
    have hsh := hv.shaped
    rw [hm] at hsh
    exact hsh
  refine (reduceTimes_safe ht _ env hv hm hpre.length_le ?_).mono fun e ⟨hv', hm', _, hc⟩ =>
    ⟨hv', hm', hc⟩
  intro q hq
  rw [← List.prefix_iff_eq_take.mp hpre] at hq
  have hc : q.closesBefore priority = true := List.all_eq_true.mp List.all_takeWhile q hq
  exact (hopen q (List.takeWhile_subset _ hq)).trailing_of_closesBefore hc

theorem advance_safe (ht : t.Valid) (hr : env.Ready t tokens) :
    Safe (Frontier.Valid t tokens) env.advance (Valid t tokens) := by
  obtain ⟨p, ps, hp, hf, -⟩ := hr.top
  have hev : p.entry.Valid := ht.entries _ (hr.entries p (by simp [hp]))
  simp only [Env.advance, hp]
  by_cases hk : p.next < p.entry.restEnd
  · simp only [hk, if_true]
    split
    · rename_i a hhole
      exact Safe.pure (hr.skip hp hk hhole ht)
    · rename_i hnot
      have hlt : p.next < p.entry.operator.pattern.length :=
        Nat.lt_of_lt_of_le hk hev.restEnd_le
      cases hslot : p.entry.operator.pattern[p.next]? with
      | none => simp at hslot; omega
      | some slot =>
        cases slot with
        | hole a => exact absurd hslot (hnot a)
        | sign s => exact Safe.pure (hp ▸ hr.atSign hp hk hslot)
  · simp only [hk, if_false]
    cases hb : p.entry.bound.isSome with
    | true => exact Safe.pure (hp ▸ hr.trailing hp (Nat.not_lt.mp hk) hb)
    | false =>
      obtain ⟨hle, hv⟩ := hr.pop_complete ht hp (Nat.not_lt.mp hk) 
        (Option.not_isSome_iff_eq_none.mp (by simp [hb]))
      simp only [Bool.false_eq_true, if_false]
      refine Safe.bind (reduce_safe hp hle) ?_
      rintro e rfl
      exact Safe.pure hv

theorem consume_safe (ht : t.Valid) (hp : env.pending = p :: ps)
    (hr : Ready t tokens
      { env with pending := { p with next := p.next + 1 } :: ps, cursor := env.cursor + 1 }) :
    Safe (Frontier.Valid t tokens) env.consume (Valid t tokens) := by
  simp only [Env.consume, hp]
  exact advance_safe ht hr

theorem enter_safe (ht : t.Valid) {b : Branch ι} (hb : b.Valid t tokens) :
    Safe (Frontier.Valid t tokens) (b.env.enter b.entry) (Valid t tokens) := by
  obtain ⟨tok, htok, hval⟩ := hb.sign
  unfold Env.enter
  cases hm : b.env.mode with
  | expectOperand =>
    have hs : b.entry.startsWithExpression = false := by simpa [hm] using hb.side
    simp only [beq_iff_eq, reduceCtorEq, if_false, pure_bind]
    exact advance_safe ht (hb.env.enter_opening ht hm hb.entry hs htok hval)
  | afterOperand =>
    have hs : b.entry.startsWithExpression = true := hb.side.mp hm
    simp only [BEq.rfl, if_true]
    refine Safe.bind (unwind_safe ht hb.env hm _) ?_
    rintro e ⟨hv, hm', hc⟩
    exact advance_safe ht (hv.enter_continuing ht hm' hb.entry hs (hc ▸ htok) hval)
  | expectSign => exact absurd hm hb.mode

theorem fork_safe (ht : t.Valid) {group : List (Entry ι)} (hg : group ≠ [])
    (hb : ∀ e ∈ group, Branch.Valid t tokens ⟨env, e⟩) :
    Safe (Frontier.Valid t tokens) (env.fork group) (Valid t tokens) := by
  cases group with
  | nil => exact absurd rfl hg
  | cons first rest =>
    refine Safe.bind (Safe.modify ?_) fun _ _ => enter_safe (b := ⟨env, first⟩) ht (hb first (by simp))
    intro fr hi b hmem
    simp only [List.mem_append, List.mem_map] at hmem
    rcases hmem with ⟨e, he, rfl⟩ | hmem
    · exact hb e (by simp [he])
    · exact hi b hmem

theorem required_safe (hp : env.pending = p :: ps) {s : String} (hs : p.slotSign = some s) :
    Safe (Frontier.Valid t tokens) env.required (· = s) := by
  simp only [Env.required, hp]
  simp [hs]
  exact Safe.pure rfl

theorem finish_safe (ht : t.Valid) (hv : env.Valid t tokens) (hend : tokens[env.cursor]? = none) :
    Safe (Frontier.Valid t tokens) env.finish (Step.Sound t tokens) := by
  have hsh := hv.shaped
  unfold Env.finish
  cases hm : env.mode with
  | expectOperand => exact Safe.pure trivial
  | expectSign =>
    obtain ⟨p, ps, hp, -, -, s, hs⟩ := hv.atSign hm
    exact Safe.bind (required_safe hp (Pending.slotSign_eq_some.mpr hs)) fun _ _ => Safe.pure trivial
  | afterOperand =>
    rw [hm] at hsh
    dsimp only
    split
    · exact Safe.pure trivial
    · rename_i hob
      have hall := obligation_none hob
      refine Safe.bind (reduceTimes_safe ht _ env hv hm (Nat.le_refl _) fun q hq => ?_) ?_
      · rw [List.take_length] at hq
        exact (hsh q hq).trailing_of_slotSign (hall q hq)
      rintro e ⟨hv', hm', hp', hc'⟩
      rw [List.drop_length] at hp'
      have hcount := hv'.count
      rw [hp', extra_afterOperand hm'] at hcount
      obtain ⟨root, hroot⟩ := List.length_eq_one_iff.mp hcount
      simp only [hroot]
      refine Safe.pure ⟨hv'.fits root (by simp [hroot]), ?_⟩
      have hr := hv'.reads
      have hall : tokens.toList.take e.cursor = tokens.toList := by
        rw [hc']
        exact List.take_of_length_le (by simpa using Array.getElem?_eq_none_iff.mp hend)
      rw [hall, hp', extra_afterOperand hm', hroot] at hr
      simpa [reading] using hr.symm

theorem openWith_safe (ht : t.Valid) (hv : env.Valid t tokens) (hm : env.mode = .expectOperand)
    {tok : Token} {s : String} (htok : tokens[env.cursor]? = some tok) (hval : tok.value = .sign s) :
    Safe (Frontier.Valid t tokens) (openWith (Groups.ofTable t) env s) (Step.Sound t tokens) := by
  unfold Env.openWith
  split
  · rename_i group hgroup
    obtain ⟨hne, hall⟩ := Groups.opening_spec hgroup
    have hb := Branch.valid_of_group hv (by simp [hm]) (by simp [hm]) hall htok hval
    exact Safe.map (fork_safe ht hne hb) fun _ h => h
  · split <;> exact Safe.pure trivial

theorem continueWithOperators_safe (ht : t.Valid) (hv : env.Valid t tokens)
    (hm : env.mode = .afterOperand) {tok : Token} {s : String}
    (htok : tokens[env.cursor]? = some tok) (hval : tok.value = .sign s) :
    Safe (Frontier.Valid t tokens) (continueWithOperators (Groups.ofTable t) env s)
      (Step.Sound t tokens) := by
  unfold Env.continueWithOperators
  split
  · rename_i group hgroup
    obtain ⟨hne, hall⟩ := Groups.continuing_spec hgroup
    have hb := Branch.valid_of_group hv (by simp [hm]) (by simp [hm]) hall htok hval
    exact Safe.map (fork_safe ht hne hb) fun _ h => h
  · split <;> exact Safe.pure trivial

theorem continueWith_safe (ht : t.Valid) (hv : env.Valid t tokens)
    (hm : env.mode = .afterOperand) {tok : Token} {s : String}
    (htok : tokens[env.cursor]? = some tok) (hval : tok.value = .sign s) :
    Safe (Frontier.Valid t tokens) (continueWith (Groups.ofTable t) env s)
      (Step.Sound t tokens) := by
  unfold Env.continueWith
  split
  · rename_i depth s' hob
    split
    · rename_i heq
      have hss : s' = s := by simpa using heq
      subst hss
      obtain ⟨hnone, q, hq, hqs⟩ := obligation_some hob
      have hsh := hv.shaped
      rw [hm] at hsh
      have hlen : depth < env.pending.length := (List.getElem?_eq_some_iff.mp hq).1
      refine Safe.bind (reduceTimes_safe ht depth env hv hm (Nat.le_of_lt hlen)
        fun q' hq' => (hsh q' (List.mem_of_mem_take hq')).trailing_of_slotSign (hnone q' hq')) ?_
      rintro e ⟨hv', hm', hp', hc'⟩
      have hdrop : e.pending = q :: env.pending.drop (depth + 1) := by
        rw [hp', List.drop_eq_getElem_cons hlen, (List.getElem?_eq_some_iff.mp hq).2]
      have hqe : q.entry ∈ t.entries := hv'.entries q (by simp [hdrop])
      have hw : q.Waiting :=
        (hsh q (List.mem_of_getElem? hq)).waiting_of_slotSign (ht.entries _ hqe) hqs
      have hr := hv'.consume_waiting hm' hdrop hw (Pending.slotSign_eq_some.mp hqs)
        (hc' ▸ htok) hval
      exact Safe.bind (consume_safe ht hdrop hr) fun _ h => Safe.pure h
    · exact continueWithOperators_safe ht hv hm htok hval
  · exact continueWithOperators_safe ht hv hm htok hval

theorem step_safe (ht : t.Valid) (hv : env.Valid t tokens) :
    Safe (Frontier.Valid t tokens) (env.step (Groups.ofTable t) tokens) (Step.Sound t tokens) := by
  unfold Env.step
  split
  · rename_i hend
    exact finish_safe ht hv hend
  · rename_i tok htok
    split
    · rename_i s hm hval
      exact openWith_safe ht hv hm htok hval
    · rename_i x hm hval
      exact Safe.pure (hv.pushLiteral hm htok hval)
    · rename_i n hm hval
      exact Safe.pure (hv.pushLiteral hm htok hval)
    · rename_i s hm hval
      exact continueWith_safe ht hv hm htok hval
    · exact Safe.pure trivial
    · rename_i hm
      obtain ⟨p, ps, hp, -, -, s, hs⟩ := hv.atSign hm
      refine Safe.bind (required_safe hp (Pending.slotSign_eq_some.mpr hs)) ?_
      rintro req rfl
      split
      · rename_i s' hval
        split
        · rename_i heq
          have hss : s' = req := by simpa using heq
          subst hss
          exact Safe.map (consume_safe ht hp (hv.consume_atSign hm hp hs htok hval)) fun _ h => h
        · exact Safe.pure trivial
      · exact Safe.pure trivial

end Env

namespace Parser

open SearchM

variable [DecidableEq ι] {t : Table ι} {tokens : Array Token}

theorem search_safe (ht : t.Valid) :
    ∀ (fuel : Nat) (env : Env ι) (best : Option SyntaxError), env.Valid t tokens →
      Safe (Frontier.Valid t tokens) (search (Groups.ofTable t) tokens fuel env best)
        fun r => ∀ tree, r = .ok tree → tree.Reads t tokens
  | 0, _, _, _ => Safe.pure fun _ h => nomatch h
  | fuel + 1, env, best, hv => by
    unfold search
    refine Safe.bind (Env.step_safe ht hv) fun st hst => ?_
    cases st with
    | next e => exact search_safe ht fuel e best hst
    | accept tree =>
      refine Safe.pure fun tree' h => ?_
      cases h
      exact hst
    | fail f =>
      -- the alternative taken up was valid when it was set aside, and entering it is safe
      refine Safe.get_bind fun fr hi => ?_
      split
      · exact Safe.pure fun _ h => nomatch h
      · rename_i b rest hbr
        have hb : b.Valid t tokens := hi b (by simp [hbr])
        refine Safe.bind (Safe.modify fun _ _ b' hb' => hi b' (by simp [hbr, hb'])) fun _ _ => ?_
        exact Safe.bind (Env.enter_safe ht hb) fun e he => search_safe ht fuel e _ he

theorem parse_sound (ht : t.Valid) (tokens : Array Token) :
    (∃ e, ((ofTable t).parse tokens).1 = .error (.rejected e)) ∨
      ∃ tree, ((ofTable t).parse tokens).1 = .ok tree ∧ tree.Reads t tokens := by
  obtain ⟨r, fr, hrun, hr, -⟩ := search_safe ht ((ofTable t).fuel tokens) {} none
    (Env.valid_start t tokens) { stats := { tokens := tokens.size } } fun _ h => nomatch h
  rw [parse_eq_parseLists]
  unfold parseLists
  simp only [ofTable] at hrun ⊢
  rw [hrun]
  cases r with
  | ok tree => exact .inr ⟨tree, rfl, hr tree rfl⟩
  | error e => exact .inl ⟨e, rfl⟩

theorem parse_ok_reads (ht : t.Valid) {tree : Tree ι}
    (hp : ((ofTable t).parse tokens).1 = .ok tree) : tree.Reads t tokens := by
  rcases parse_sound ht tokens with ⟨e, he⟩ | ⟨tree', htree, hreads⟩
  · rw [he] at hp
    cases hp
  · rw [htree] at hp
    cases hp
    exact hreads

theorem ofLevels_difference :
    Table.ofLevels [⟨"sum", .left, [⟨Calculator.Op.sub, .chain, [.sign "-", .hole none]⟩]⟩] =
      .ok ⟨[("sum", .left)],
        [⟨⟨Calculator.Op.sub, .chain, [.sign "-", .hole none]⟩, 0, .left, 0, "-", 1, 2, some 0⟩],
        ["-"]⟩ := by
  simp +decide [Table.ofLevels, Table.placed, Table.add, Entry.derive, leadSign, validSign,
    String.any, String.contains_bool_eq, Text.isBlank, Slot.sign?, Slot.isHole, holeLimits,
    addSigns]
  rfl

/-- A parser of a table built from levels never breaks an invariant of its search: whatever the
tokens, it gives a tree or a syntax error, never an internal fault. -/
theorem parse_never_internal {levels : List (Level ι)} {t : Table ι}
    (h : Table.ofLevels levels = .ok t) (tokens : Array Token) (f : Fault) :
    ((ofTable t).parse tokens).1 ≠ .error (.internal f) := by
  rcases parse_sound (Table.ofLevels_valid h) tokens with ⟨e, he⟩ | ⟨tree, htree, -⟩
  · rw [he]
    simp
  · rw [htree]
    simp

theorem differences_never_internal :
    ∃ t, Table.ofLevels [⟨"sum", .left, [⟨Calculator.Op.sub, .chain, [.sign "-", .hole none]⟩]⟩] =
        .ok t ∧
      ((ofTable t).parse
          #[⟨.ident "a", ⟨⟨0, 0⟩, ⟨0, 1⟩⟩⟩, ⟨.sign "-", ⟨⟨0, 2⟩, ⟨0, 3⟩⟩⟩,
            ⟨.ident "b", ⟨⟨0, 4⟩, ⟨0, 5⟩⟩⟩]).1 ≠ .error (.internal .stackUnderflow) :=
  ⟨_, ofLevels_difference, parse_never_internal ofLevels_difference _ _⟩

/-- A tree parsed with a table built from levels fits the table, so it renders, and it reads
back as the tokens, each used once and in order. -/
theorem parse_reads_back {levels : List (Level ι)} {t : Table ι}
    (h : Table.ofLevels levels = .ok t) {tokens : Array Token} {tree : Tree ι}
    (hp : ((ofTable t).parse tokens).1 = .ok tree) :
    tree.Fits t ∧ (∃ s, tree.render t = .ok s) ∧ tree.yield t = tokens.toList.map (·.value) := by
  obtain ⟨hfits, hyield⟩ := parse_ok_reads (Table.ofLevels_valid h) hp
  exact ⟨hfits, Tree.render_ok_of_fits hfits, hyield⟩

theorem differences_read_back :
    ∃ t, Table.ofLevels [⟨"sum", .left, [⟨Calculator.Op.sub, .chain, [.sign "-", .hole none]⟩]⟩] =
        .ok t ∧
      ((ofTable t).parse
          #[⟨.ident "a", ⟨⟨0, 0⟩, ⟨0, 1⟩⟩⟩, ⟨.sign "-", ⟨⟨0, 2⟩, ⟨0, 3⟩⟩⟩,
            ⟨.ident "b", ⟨⟨0, 4⟩, ⟨0, 5⟩⟩⟩]).1 =
        .ok (.node Calculator.Op.sub [.leaf (.ident "a"), .leaf (.ident "b")]) ∧
      (Tree.node Calculator.Op.sub [.leaf (.ident "a"), .leaf (.ident "b")]).Fits t ∧
      (∃ s, (Tree.node Calculator.Op.sub [.leaf (.ident "a"), .leaf (.ident "b")]).render t =
        .ok s) ∧
      (Tree.node Calculator.Op.sub [.leaf (.ident "a"), .leaf (.ident "b")]).yield t =
        [.ident "a", .sign "-", .ident "b"] := by
  have hp : ((ofTable ⟨[("sum", .left)],
        [⟨⟨Calculator.Op.sub, .chain, [.sign "-", .hole none]⟩, 0, .left, 0, "-", 1, 2, some 0⟩],
        ["-"]⟩).parse
      #[⟨.ident "a", ⟨⟨0, 0⟩, ⟨0, 1⟩⟩⟩, ⟨.sign "-", ⟨⟨0, 2⟩, ⟨0, 3⟩⟩⟩,
        ⟨.ident "b", ⟨⟨0, 4⟩, ⟨0, 5⟩⟩⟩]).1 =
      .ok (.node Calculator.Op.sub [.leaf (.ident "a"), .leaf (.ident "b")]) := by
    cbv
  exact ⟨_, ofLevels_difference, hp, parse_reads_back ofLevels_difference hp⟩

end Parser

end Mixfix
