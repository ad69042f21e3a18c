import Mixfix.Proofs.Parse.DepthFirst

namespace Mixfix

/-- The tokens left to an alternative once it is taken up: those after the sign where its
operator begins. -/
def Branch.remaining {ι : Type} (tokens : Array Token) (b : Branch ι) : ℕ :=
  tokens.size - (b.env.cursor + 1)

namespace Parser

variable {ι : Type}

/-- The state of the search loop between turns: the line, the failure kept so far, and the
frontier. -/
structure Loop (ι : Type) where
  env : Env ι
  best : Option SyntaxError
  frontier : Frontier ι

/-- Where one turn of the search loop leads: the search ends, with its result and frontier, or it
goes on from a new state. -/
inductive Turn (ι : Type) where
  | stop (result : Except Fault (Except SyntaxError (Tree ι))) (frontier : Frontier ι)
  | next (state : Loop ι)

/-- One turn of the search loop: the line steps; a line that goes on is followed, one that accepts
ends the search, and one that fails gives way to the alternative set aside last, or ends the search
with the failure kept when none is left. -/
def turn (g : Groups ι) (tokens : Array Token) (s : Loop ι) : Turn ι :=
  match (s.env.step g tokens).run.run s.frontier with
  | (.error f, fr') => .stop (.error f) fr'
  | (.ok (.next e), fr') => .next ⟨e, s.best, fr'⟩
  | (.ok (.accept tree), fr') => .stop (.ok (.ok tree)) fr'
  | (.ok (.fail f), fr') =>
    let best := keepBest s.best (failureAt tokens s.env f)
    match fr'.branches with
    | [] => .stop (.ok (.error best)) fr'
    | b :: rest =>
      match (b.env.enter b.entry).run.run
          { fr' with branches := rest, stats.backtracks := fr'.stats.backtracks + 1 } with
      | (.error f', fr'') => .stop (.error f') fr''
      | (.ok e, fr'') => .next ⟨e, some best, fr''⟩

/-- The work left to the search: the tokens from the line's cursor on, and those left to each
alternative set aside. -/
def load (tokens : Array Token) (s : Loop ι) : Multiset ℕ :=
  (tokens.size - s.env.cursor) ::ₘ
    ((s.frontier.branches.map (Branch.remaining tokens) : List ℕ) : Multiset ℕ)

variable {g : Groups ι} {tokens : Array Token}

theorem search_succ (fuel : Nat) (env : Env ι) (best : Option SyntaxError) (fr : Frontier ι) :
    (search g tokens (fuel + 1) env best).run.run fr =
      match turn g tokens ⟨env, best, fr⟩ with
      | .stop r fr' => (r, fr')
      | .next s => (search g tokens fuel s.env s.best).run.run s.frontier := by
  unfold turn
  rcases h : (env.step g tokens).run.run fr with ⟨r, fr'⟩
  rcases r with f | (e | tree | f)
  · exact search_error_run h
  · exact search_next_run h
  · exact search_accept_run h
  · dsimp only
    cases hb : fr'.branches with
    | nil => exact search_fail_nil_run h hb
    | cons b rest =>
      rcases he : (b.env.enter b.entry).run.run
          { fr' with branches := rest, stats.backtracks := fr'.stats.backtracks + 1 } with ⟨r', fr''⟩
      rcases r' with f' | e
      · rw [search_fail_cons_run h hb]
        simp only [ExceptT.run_bind, StateT.run_bind]
        rw [he]
        rfl
      · dsimp only
        rw [he]
        exact search_fail_run h hb he

theorem isDershowitzMannaLT_replace {w : ℕ} {X Y : Multiset ℕ} (h : ∀ y ∈ Y, y < w) :
    (Y + X).IsDershowitzMannaLT (w ::ₘ X) :=
  ⟨X, Y, {w}, by simp, add_comm Y X, by rw [add_comm, Multiset.singleton_add],
    fun y hy => ⟨w, by simp, h y hy⟩⟩

theorem weights_pushed_lt {env : Env ι} :
    ∀ y ∈ (((env.stepAlone g tokens).2.map (Branch.remaining tokens) : List ℕ) : Multiset ℕ),
      y < tokens.size - env.cursor := by
  intro y hy
  obtain ⟨b, hb, rfl⟩ := List.mem_map.mp (Multiset.mem_coe.mp hy)
  obtain ⟨hbe, hlt, -⟩ := Env.stepAlone_branch hb
  rw [Branch.remaining, hbe]
  omega

theorem load_turn_lt {s s' : Loop ι} (h : turn g tokens s = .next s') :
    (load tokens s').IsDershowitzMannaLT (load tokens s) := by
  obtain ⟨env, best, fr⟩ := s
  obtain ⟨hf, -, -⟩ := @Env.stepAlone_spec ι env g tokens
  obtain ⟨stats, hrun⟩ := hf fr
  unfold turn at h
  rw [hrun] at h
  have hpushed := @weights_pushed_lt ι g tokens env
  generalize (env.stepAlone g tokens).2 = pushed at h hpushed
  unfold load
  cases hr : (env.stepAlone g tokens).1 with
  | error f => rw [hr] at h; cases h
  | ok st =>
    rw [hr] at h
    cases st with
    | next e₀ =>
      -- the line moves one token on, and what it set aside weighs as much as the line now does
      obtain ⟨hlt, hce⟩ := Env.stepAlone_next hr
      cases h
      dsimp only
      rw [hce, List.map_append, ← Multiset.coe_add, ← Multiset.cons_add]
      refine isDershowitzMannaLT_replace fun y hy => ?_
      rcases Multiset.mem_cons.mp hy with rfl | hy
      · omega
      · exact hpushed y hy
    | accept tree => cases h
    | fail f =>
      dsimp only at h
      cases hb : pushed ++ fr.branches with
      | nil => rw [hb] at h; cases h
      | cons b rest =>
        rw [hb] at h
        obtain ⟨hfe, hce⟩ := b.enterAlone_spec
        obtain ⟨st', hrun'⟩ := hfe ⟨rest, { stats with backtracks := stats.backtracks + 1 }⟩
        simp only [hrun'] at h
        cases he : b.enterAlone with
        | error f' => rw [he] at h; cases h
        | ok e₀ =>
          rw [he] at h
          cases h
          have hw : tokens.size - e₀.cursor = b.remaining tokens := by
            rw [Branch.remaining, hce e₀ he]
          dsimp only
          rw [hw, List.nil_append, Multiset.cons_coe, ← List.map_cons, ← hb, List.map_append,
            ← Multiset.coe_add]
          exact isDershowitzMannaLT_replace hpushed

theorem turn_wellFounded : WellFounded fun s' s : Loop ι => turn g tokens s = .next s' :=
  Subrelation.wf (fun h => load_turn_lt h)
    (InvImage.wf (load tokens) Multiset.wellFounded_isDershowitzMannaLT)

theorem not_exists_endless_run : ¬ ∃ run : ℕ → Loop ι, ∀ i, turn g tokens (run i) = .next (run (i + 1)) := by
  rintro ⟨run, hrun⟩
  obtain ⟨n, hn⟩ := @WellFounded.not_rel_apply_succ _ _ ⟨@turn_wellFounded ι g tokens⟩ run
  exact hn (hrun n)

theorem search_fuel_stable (t : Table ι) (tokens : Array Token) {fuel : Nat}
    (h : (ofTable t).fuel tokens ≤ fuel) :
    result ((search (Groups.ofTable t) tokens fuel {} none).run.run
      { stats := { tokens := tokens.size } }).1 = ((ofTable t).parse tokens).1 := by
  have hs := search_settle (g := Groups.ofTable t) fuel {} none
    { stats := { tokens := tokens.size } } (Nat.zero_le _) (fun _ hb => nomatch hb)
    (by simpa using (visits_trace_le_fuel t tokens).trans h)
  simp only [List.flatMap_nil, List.append_nil] at hs
  exact Option.some.inj (hs.trans (parse_eq_settle t tokens).symm)

end Parser

namespace Shared

variable {ι : Type}

/-- The state of the loop of the search over the shared store between turns. -/
structure Loop (ι : Type) where
  env : Env
  best : Option SyntaxError
  store : Store ι

inductive Turn (ι : Type) where
  | stop (result : Except Fault (Except SyntaxError Nat)) (store : Store ι)
  | next (state : Loop ι)

/-- One turn of the loop: the line steps; a line that goes on is followed, one that accepts ends
the search, and one that fails gives way to the alternative set aside last. -/
def turn (g : Groups ι) (tokens : Array Token) (s : Loop ι) : Turn ι :=
  match (s.env.step g tokens).run.run s.store with
  | (.error f, st) => .stop (.error f) st
  | (.ok (.next e), st) => .next ⟨e, s.best, st⟩
  | (.ok (.accept root), st) => .stop (.ok (.ok root)) st
  | (.ok (.fail f), st) =>
    let best := Parser.keepBest s.best (failureAt tokens s.env f)
    match st.branches with
    | [] => .stop (.ok (.error best)) st
    | b :: rest =>
      match (b.env.enter b.entry).run.run
          { st with branches := rest, stats.backtracks := st.stats.backtracks + 1 } with
      | (.error f', st') => .stop (.error f') st'
      | (.ok e, st') => .next ⟨e, some best, st'⟩

/-- The work left: the tokens from the line's cursor on, and for each alternative set aside the
tokens after the sign it forked at. -/
def load (tokens : Array Token) (s : Loop ι) : Multiset ℕ :=
  (tokens.size - s.env.cursor) ::ₘ
    ((s.store.branches.map fun b => tokens.size - (b.env.cursor + 1) : List ℕ) : Multiset ℕ)

def start (tokens : Array Token) : Loop ι :=
  ⟨{}, none, { stats := { tokens := tokens.size } }⟩

def Reaches (g : Groups ι) (tokens : Array Token) (s : Loop ι) : Prop :=
  Relation.ReflTransGen (fun a b => turn g tokens a = .next b) (start tokens) s

variable {g : Groups ι} {tokens : Array Token}

theorem search_succ (fuel : Nat) (E : Env) (best : Option SyntaxError) (st : Store ι) :
    (search g tokens (fuel + 1) E best).run.run st =
      match turn g tokens ⟨E, best, st⟩ with
      | .stop r st' => (r, st')
      | .next s => (search g tokens fuel s.env s.best).run.run s.store := by
  unfold turn
  rw [search]
  rcases h : (E.step g tokens).run.run st with ⟨r, st₁⟩
  rcases r with f | (e | root | f)
  · rw [run_bind_error h]
  · rw [run_bind_ok h]
  · rw [run_bind_ok h]
    rfl
  · rw [run_bind_ok h]
    dsimp only
    rw [run_get_bind]
    cases hb : st₁.branches with
    | nil => rfl
    | cons b rest =>
      dsimp only
      rw [run_modify_bind]
      rcases he : (b.env.enter b.entry).run.run
          { st₁ with branches := rest, stats.backtracks := st₁.stats.backtracks + 1 } with ⟨r', st₂⟩
      rcases r' with f' | e
      · rw [run_bind_error he]
      · rw [run_bind_ok he]

/-- A state of the loop over the shared store stands for a state of the loop over lines that
nothing shares. -/
def LoopRepresents (s : Loop ι) (l : Parser.Loop ι) : Prop :=
  s.store.Matches l.frontier ∧ Represents s.store s.env l.env ∧ s.best = l.best

def TurnRepresents : Turn ι → Parser.Turn ι → Prop
  | .next s, .next l => LoopRepresents s l
  | .stop r st, .stop r' fr => st.Matches fr ∧ Agree (Accepts st) r r'
  | _, _ => False

theorem turn_refines (g : Groups ι) (tokens : Array Token) {s : Loop ι} {l : Parser.Loop ι}
    (h : LoopRepresents s l) :
    TurnRepresents (turn g tokens s) (Parser.turn g tokens l) := by
  obtain ⟨E, best, st⟩ := s
  obtain ⟨env, best', fr⟩ := l
  obtain ⟨hm, hE, hbest⟩ := h
  dsimp only at hm hE hbest
  subst hbest
  obtain ⟨-, hm₁, ha⟩ := step_refines hm hE g tokens
  unfold turn Parser.turn
  dsimp only
  generalize (E.step g tokens).run.run st = x at hm₁ ha ⊢
  generalize (env.step g tokens).run.run fr = y at hm₁ ha ⊢
  obtain ⟨r', st₁⟩ := x
  obtain ⟨r, fr₁⟩ := y
  dsimp only at hm₁ ha
  rcases r' with f' | (E' | root | f') <;> rcases r with f | (env' | tree | f) <;>
    simp only [Agree, StepRepresents] at ha
  · exact ⟨hm₁, ha⟩
  · exact ⟨hm₁, ha, rfl⟩
  · exact ⟨hm₁, ha⟩
  · subst ha
    dsimp only
    rw [failureAt_eq hE]
    cases hb : st₁.branches with
    | nil =>
      rw [hm₁.branches_nil hb]
      exact ⟨hm₁, rfl⟩
    | cons b rest =>
      obtain ⟨b', rest', hfb, hentry, -, hm₂, hbE⟩ := hm₁.takeUp hb
      rw [hfb]
      dsimp only at hm₂ hbE ⊢
      rw [hentry]
      obtain ⟨-, hm₃, ha₃⟩ := enter_refines hm₂ hbE b'.entry
      generalize (b.env.enter b'.entry).run.run _ = x at hm₃ ha₃ ⊢
      generalize (b'.env.enter b'.entry).run.run _ = y at hm₃ ha₃ ⊢
      obtain ⟨r', st₃⟩ := x
      obtain ⟨r, fr₃⟩ := y
      rcases r' with f' | E' <;> rcases r with f | env' <;> simp only [Agree] at ha₃
      · exact ⟨hm₃, ha₃⟩
      · exact ⟨hm₃, ha₃, rfl⟩

theorem load_eq {s : Loop ι} {l : Parser.Loop ι} (h : LoopRepresents s l) :
    load tokens s = Parser.load tokens l := by
  have key : ∀ {bs : List (Branch ι)} {bs' : List (Mixfix.Branch ι)},
      List.Forall₂ (BranchRepresents s.store) bs bs' →
        bs.map (fun b => tokens.size - (b.env.cursor + 1)) = bs'.map (Branch.remaining tokens) := by
    intro bs bs' hbs
    induction hbs with
    | nil => rfl
    | cons hb _ ih => rw [List.map_cons, List.map_cons, ih, Branch.remaining, hb.2.cursor]
  unfold load Parser.load
  rw [h.2.1.cursor, key h.1.branches]

theorem LoopRepresents.start (tokens : Array Token) :
    LoopRepresents (start tokens : Loop ι) ⟨{}, none, { stats := { tokens := tokens.size } }⟩ :=
  ⟨start_matches _, start_represents _, rfl⟩

theorem turn_next_refines {s s' : Loop ι} {l : Parser.Loop ι} (h : LoopRepresents s l)
    (ht : turn g tokens s = .next s') :
    ∃ l', Parser.turn g tokens l = .next l' ∧ LoopRepresents s' l' := by
  have hr := turn_refines g tokens h
  rw [ht] at hr
  cases hl : Parser.turn g tokens l with
  | next l' => rw [hl] at hr; exact ⟨l', rfl, hr⟩
  | stop r fr => rw [hl] at hr; exact hr.elim

theorem Reaches.represents {s : Loop ι} (h : Reaches g tokens s) : ∃ l, LoopRepresents s l := by
  induction h with
  | refl => exact ⟨_, LoopRepresents.start tokens⟩
  | tail _ hturn ih =>
    obtain ⟨l, hl⟩ := ih
    obtain ⟨l', -, hl'⟩ := turn_next_refines hl hturn
    exact ⟨l', hl'⟩

theorem Reaches.turn {s s' : Loop ι} (h : Reaches g tokens s) (ht : turn g tokens s = .next s') :
    Reaches g tokens s' :=
  Relation.ReflTransGen.tail h ht

theorem load_turn_lt {s s' : Loop ι} (h : Reaches g tokens s) (ht : turn g tokens s = .next s') :
    (load tokens s').IsDershowitzMannaLT (load tokens s) := by
  obtain ⟨l, hl⟩ := h.represents
  obtain ⟨l', hl', hr⟩ := turn_next_refines hl ht
  rw [load_eq hl, load_eq hr]
  exact Parser.load_turn_lt hl'

theorem not_exists_endless_run :
    ¬ ∃ run : ℕ → Loop ι, run 0 = start tokens ∧ ∀ i, turn g tokens (run i) = .next (run (i + 1)) := by
  rintro ⟨run, h0, hrun⟩
  have hreach : ∀ i, Reaches g tokens (run i) := by
    intro i
    induction i with
    | zero => rw [h0]; exact Relation.ReflTransGen.refl
    | succ i ih => exact ih.turn (hrun i)
  -- the work left would descend forever in a well-founded order
  have hwf : WellFounded (InvImage (fun X Y : Multiset ℕ => X.IsDershowitzMannaLT Y)
      (load tokens : Loop ι → Multiset ℕ)) :=
    InvImage.wf _ Multiset.wellFounded_isDershowitzMannaLT
  obtain ⟨n, hn⟩ := @WellFounded.not_rel_apply_succ _ _ ⟨hwf⟩ run
  exact hn (load_turn_lt (hreach n) (hrun n))

theorem Reaches.builds {s : Loop ι} (h : Reaches g tokens s) :
    s.store.Sound ∧ ∀ i < s.store.nodes.size, ∃ tree, build s.store.nodes i = some tree := by
  obtain ⟨l, hl⟩ := h.represents
  exact ⟨hl.1.sound, fun _ hi => hl.1.sound.nodes.exists_build hi⟩

theorem outcome_eq_result {st : Store ι} {r' : Except Fault (Except SyntaxError Nat)}
    {r : Except Fault (Except SyntaxError (Tree ι))} (h : Agree (Accepts st) r' r) :
    outcome st.nodes r' = Parser.result r := by
  rcases r' with f' | (e' | root) <;> rcases r with f | (e | tree) <;>
    simp only [Agree, Accepts] at h <;> simp only [outcome, Parser.result, h]

theorem search_fuel_enough (t : Table ι) (tokens : Array Token) {fuel : Nat}
    (h : (Parser.ofTable t).fuel tokens ≤ fuel) :
    outcome ((search (Groups.ofTable t) tokens fuel {} none).run.run
        { stats := { tokens := tokens.size } }).2.nodes
      ((search (Groups.ofTable t) tokens fuel {} none).run.run
        { stats := { tokens := tokens.size } }).1 = ((Parser.ofTable t).parse tokens).1 := by
  obtain ⟨-, -, ha⟩ := search_refines (Groups.ofTable t) tokens fuel none
    (start_matches tokens.size) (start_represents _)
  rw [outcome_eq_result ha]
  exact Parser.search_fuel_stable t tokens h

end Shared

namespace Parser

/-- The search ends on every input. At each step it is given, the search over the shared store
takes one turn of its loop. A turn that goes on from a state the loop reaches lowers, in the
multiset order, the tokens left to the line and to each alternative set aside, though a fork sets
several aside; so no run of the loop from the start goes on forever, and the steps the search is
given are enough: with more it gives the same. Every store the loop reaches links each stack node
and each operator node only to older ones, so popping a stack and building the tree of any node
end, and every node builds. -/
theorem search_terminates (t : Table ι) (tokens : Array Token) :
    (∀ fuel E best st, (Shared.search (Groups.ofTable t) tokens (fuel + 1) E best).run.run st =
      match Shared.turn (Groups.ofTable t) tokens ⟨E, best, st⟩ with
      | .stop r st' => (r, st')
      | .next s => (Shared.search (Groups.ofTable t) tokens fuel s.env s.best).run.run s.store) ∧
    (∀ s s', Shared.Reaches (Groups.ofTable t) tokens s →
      Shared.turn (Groups.ofTable t) tokens s = .next s' →
        (Shared.load tokens s').IsDershowitzMannaLT (Shared.load tokens s)) ∧
    (¬ ∃ run : ℕ → Shared.Loop ι, run 0 = Shared.start tokens ∧
      ∀ i, Shared.turn (Groups.ofTable t) tokens (run i) = .next (run (i + 1))) ∧
    (∀ s, Shared.Reaches (Groups.ofTable t) tokens s →
      s.store.Sound ∧ ∀ i < s.store.nodes.size, ∃ tree, Shared.build s.store.nodes i = some tree) ∧
    ∀ fuel, (ofTable t).fuel tokens ≤ fuel →
      Shared.outcome ((Shared.search (Groups.ofTable t) tokens fuel {} none).run.run
          { stats := { tokens := tokens.size } }).2.nodes
        ((Shared.search (Groups.ofTable t) tokens fuel {} none).run.run
          { stats := { tokens := tokens.size } }).1 = ((ofTable t).parse tokens).1 :=
  ⟨Shared.search_succ, fun _ _ h ht => Shared.load_turn_lt h ht, Shared.not_exists_endless_run,
    fun _ h => h.builds, fun _ h => Shared.search_fuel_enough t tokens h⟩

end Parser

end Mixfix
