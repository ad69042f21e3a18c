import Mixfix.Proofs.Parse.Frames
import Mixfix.Proofs.Parse.Complete

namespace Mixfix

namespace Parser

/-- What the search meets: an environment it steps, or the end of a line, which accepts a tree,
fails with a syntax error or breaks an invariant. -/
inductive Event (ι : Type) where
  | visit (env : Env ι)
  | accept (tree : Tree ι)
  | reject (error : SyntaxError)
  | fault (fault : Fault)

namespace Event

variable {ι : Type}

def visited? : Event ι → Option (Env ι)
  | .visit env => some env
  | _ => none

def rejected? : Event ι → Option SyntaxError
  | .reject e => some e
  | _ => none

def accepted? : Event ι → Option (Tree ι)
  | .accept tree => some tree
  | _ => none

/-- What follows a step from `env` that gives `r` on its line: the events from the next
environment, given by `follow`, or the end of the line. -/
def afterStep (tokens : Array Token) (env : Env ι) (follow : Env ι → List (Event ι)) :
    Except Fault (Step ι) → List (Event ι)
  | .ok (.next e) => follow e
  | .ok (.accept tree) => [.accept tree]
  | .ok (.fail f) => [.reject (failureAt tokens env f)]
  | .error f => [.fault f]

/-- The events of an alternative taken up: those from the environment its operator begins,
given by `follow`. -/
def ofBranch (follow : Env ι → List (Event ι)) (b : Branch ι) : List (Event ι) :=
  match b.enterAlone with
  | .ok e => follow e
  | .error f => [.fault f]

end Event

variable {ι : Type}

/-- The depth-first search from `env`, with at most `depth` steps on a line: the environment is
stepped, its line goes on, and then the alternatives the step set aside are taken up in order. -/
def explore (g : Groups ι) (tokens : Array Token) : Nat → Env ι → List (Event ι)
  | 0, _ => []
  | depth + 1, env =>
    .visit env :: (Event.afterStep tokens env (explore g tokens depth) (env.stepAlone g tokens).1 ++
      (env.stepAlone g tokens).2.flatMap (Event.ofBranch (explore g tokens depth)))

/-- The depth-first search from `env`, with a step for each token left and one for the end. -/
def trace (g : Groups ι) (tokens : Array Token) (env : Env ι) : List (Event ι) :=
  explore g tokens (tokens.size + 1 - env.cursor) env

def visits (events : List (Event ι)) : Nat :=
  (events.filterMap Event.visited?).length

/-- The result of a search that meets `events`, given the failure kept so far: the first line
that accepts or breaks an invariant decides; at the end, the failure kept. -/
def settle : Option SyntaxError → List (Event ι) → Option (Except ParseError (Tree ι))
  | best, [] => best.map fun e => .error (.rejected e)
  | best, .visit _ :: rest => settle best rest
  | _, .accept tree :: _ => some (.ok tree)
  | best, .reject e :: rest => settle (some (keepBest best e)) rest
  | _, .fault f :: _ => some (.error (.internal f))

def result : Except Fault (Except SyntaxError (Tree ι)) → Except ParseError (Tree ι)
  | .ok (.ok tree) => .ok tree
  | .ok (.error e) => .error (.rejected e)
  | .error f => .error (.internal f)

section Trace

variable {g : Groups ι} {tokens : Array Token} {env : Env ι}

theorem trace_eq (hc : env.cursor ≤ tokens.size) :
    trace g tokens env = .visit env ::
      (Event.afterStep tokens env (trace g tokens) (env.stepAlone g tokens).1 ++
        (env.stepAlone g tokens).2.flatMap (Event.ofBranch (trace g tokens))) := by
  have hnext : ∀ e, e.cursor = env.cursor + 1 →
      explore g tokens (tokens.size - env.cursor) e = trace g tokens e := by
    intro e he
    rw [trace, he]
    congr 1
    omega
  rw [trace, show tokens.size + 1 - env.cursor = tokens.size - env.cursor + 1 by omega, explore]
  congr 2
  · cases hr : (env.stepAlone g tokens).1 with
    | error f => rfl
    | ok st =>
      cases st with
      | next e => exact hnext e (Env.stepAlone_next hr).2
      | accept tree => rfl
      | fail f => rfl
  · refine List.flatMap_congr fun b hb => ?_
    unfold Event.ofBranch
    cases he : b.enterAlone with
    | error f => rfl
    | ok e => exact hnext e ((Env.stepAlone_branch hb).2.2 e he)

end Trace

@[simp] theorem visits_nil : visits ([] : List (Event ι)) = 0 := rfl

@[simp] theorem visits_append (a b : List (Event ι)) : visits (a ++ b) = visits a + visits b := by
  simp [visits, List.filterMap_append]

@[simp] theorem visits_visit (env : Env ι) (l : List (Event ι)) :
    visits (.visit env :: l) = visits l + 1 := by
  simp [visits, Event.visited?]

@[simp] theorem visits_accept (tree : Tree ι) (l : List (Event ι)) :
    visits (.accept tree :: l) = visits l := by
  simp [visits, List.filterMap_cons, Event.visited?]

@[simp] theorem visits_reject (e : SyntaxError) (l : List (Event ι)) :
    visits (.reject e :: l) = visits l := by
  simp [visits, List.filterMap_cons, Event.visited?]

@[simp] theorem visits_fault (f : Fault) (l : List (Event ι)) :
    visits (.fault f :: l) = visits l := by
  simp [visits, List.filterMap_cons, Event.visited?]

section Search

variable {g : Groups ι} {tokens : Array Token} {env e : Env ι} {best : Option SyntaxError}
  {fr fr' : Frontier ι}

theorem search_error_run {fuel : Nat} {f : Fault}
    (h : (env.step g tokens).run.run fr = (.error f, fr')) :
    (search g tokens (fuel + 1) env best).run.run fr = (.error f, fr') := by
  rw [search]
  simp only [ExceptT.run_bind, StateT.run_bind, h]
  rfl

theorem search_fail_nil_run {fuel : Nat} {f : SyntaxFault}
    (h : (env.step g tokens).run.run fr = (.ok (.fail f), fr')) (hb : fr'.branches = []) :
    (search g tokens (fuel + 1) env best).run.run fr =
      (.ok (.error (keepBest best (failureAt tokens env f))), fr') := by
  obtain ⟨brs, st⟩ := fr'
  simp only at hb
  subst hb
  rw [search]
  simp only [ExceptT.run_bind, StateT.run_bind, h]
  rfl

theorem search_fail_cons_run {fuel : Nat} {f : SyntaxFault} {b : Branch ι}
    {rest : List (Branch ι)} (h : (env.step g tokens).run.run fr = (.ok (.fail f), fr'))
    (hb : fr'.branches = b :: rest) :
    (search g tokens (fuel + 1) env best).run.run fr =
      (b.env.enter b.entry >>= fun e =>
        search g tokens fuel e (some (keepBest best (failureAt tokens env f)))).run.run
        { branches := rest, stats := { fr'.stats with backtracks := fr'.stats.backtracks + 1 } } := by
  obtain ⟨brs, st⟩ := fr'
  simp only at hb
  subst hb
  rw [search]
  simp only [ExceptT.run_bind, StateT.run_bind, h]
  rfl

theorem search_settle : ∀ (fuel : Nat) (env : Env ι) (best : Option SyntaxError) (fr : Frontier ι),
    env.cursor ≤ tokens.size → (∀ b ∈ fr.branches, b.env.cursor < tokens.size) →
    visits (trace g tokens env ++ fr.branches.flatMap (Event.ofBranch (trace g tokens))) ≤ fuel →
    some (result ((search g tokens fuel env best).run.run fr).1) =
      settle best (trace g tokens env ++ fr.branches.flatMap (Event.ofBranch (trace g tokens)))
  | 0, env, best, fr, hc, _, hv => by
    rw [trace_eq hc] at hv
    simp at hv
  | fuel + 1, env, best, fr, hc, hbs, hv => by
    obtain ⟨hf, -, -⟩ := @Env.stepAlone_spec ι env g tokens
    obtain ⟨stats, hrun⟩ := hf fr
    rw [trace_eq hc] at hv ⊢
    have hpushed_lt : ∀ b ∈ (env.stepAlone g tokens).2, b.env.cursor < tokens.size := by
      intro b hb
      obtain ⟨hbe, hlt, -⟩ := Env.stepAlone_branch hb
      rw [hbe]
      exact hlt
    generalize (env.stepAlone g tokens).2 = pushed at hrun hv hpushed_lt ⊢
    cases hr : (env.stepAlone g tokens).1 with
    | error f =>
      rw [hr] at hrun
      rw [search_error_run hrun]
      simp [settle, Event.afterStep, result]
    | ok st =>
      rw [hr] at hrun hv
      cases st with
      | next e =>
        obtain ⟨hlt, hce⟩ := Env.stepAlone_next hr
        rw [search_next_run hrun]
        have ih := search_settle fuel e best { branches := pushed ++ fr.branches, stats }
          (by omega) (by simpa [or_imp, forall_and] using And.intro hpushed_lt hbs)
          (by simp [Event.afterStep, List.flatMap_append] at hv ⊢; omega)
        rw [ih]
        simp [settle, Event.afterStep, List.flatMap_append]
      | accept tree =>
        rw [search_accept_run hrun]
        simp [settle, Event.afterStep, result]
      | fail f =>
        cases hb : pushed ++ fr.branches with
        | nil =>
          rw [search_fail_nil_run hrun hb]
          obtain ⟨h₁, h₂⟩ := List.append_eq_nil_iff.mp hb
          simp [settle, Event.afterStep, result, h₁, h₂]
        | cons b rest =>
          rw [search_fail_cons_run hrun hb]
          have hlist : pushed.flatMap (Event.ofBranch (trace g tokens)) ++
              fr.branches.flatMap (Event.ofBranch (trace g tokens)) =
              Event.ofBranch (trace g tokens) b ++ rest.flatMap (Event.ofBranch (trace g tokens)) := by
            rw [← List.flatMap_append, hb, List.flatMap_cons]
          have hmem : ∀ x ∈ b :: rest, x.env.cursor < tokens.size := by
            rw [← hb]
            simpa [or_imp, forall_and] using And.intro hpushed_lt hbs
          obtain ⟨hfe, hce⟩ := b.enterAlone_spec
          obtain ⟨st', hrun'⟩ := hfe
            { branches := rest, stats := { stats with backtracks := stats.backtracks + 1 } }
          simp only [Event.afterStep, List.cons_append, List.append_assoc, hlist, visits_visit,
            visits_reject, visits_append] at hv
          simp only [Event.afterStep, List.cons_append, List.append_assoc, hlist, settle]
          cases he : b.enterAlone with
          | error f' =>
            rw [he] at hrun'
            simp only [ExceptT.run_bind, StateT.run_bind, hrun', Event.ofBranch, he]
            rfl
          | ok e' =>
            rw [he] at hrun'
            simp only [Event.ofBranch, he] at hv
            have ih := search_settle fuel e' (some (keepBest best (failureAt tokens env f)))
              { branches := rest, stats := st' }
              (by rw [hce e' he]; exact hmem b (by simp))
              (fun x hx => hmem x (by simp [hx]))
              (by simp only [visits_append]; omega)
            simp only [ExceptT.run_bind, StateT.run_bind, hrun', Event.ofBranch, he, List.nil_append]
            exact ih

end Search

section Bound

variable {g : Groups ι} {tokens : Array Token} {env : Env ι}

theorem visits_flatMap_le {α : Type} {l : List α} {f : α → List (Event ι)} {m : Nat}
    (h : ∀ x ∈ l, visits (f x) ≤ m) : visits (l.flatMap f) ≤ l.length * m := by
  induction l with
  | nil => simp
  | cons x xs ih =>
    rw [List.flatMap_cons, visits_append, List.length_cons, Nat.succ_mul]
    have hx := h x (by simp)
    have hxs := ih fun y hy => h y (by simp [hy])
    omega

theorem visits_afterStep_le {follow : Env ι → List (Event ι)} {r : Except Fault (Step ι)}
    {m : Nat} (h : ∀ e, r = .ok (.next e) → visits (follow e) ≤ m) :
    visits (Event.afterStep tokens env follow r) ≤ m := by
  rcases r with f | (e | tree | f) <;> simp [Event.afterStep, h]

theorem visits_trace_le {k : Nat} (hk : 1 ≤ k)
    (hw : ∀ s grp, (g.opening? s = some grp ∨ g.continuing? s = some grp) → grp.length ≤ k) :
    ∀ (n : Nat) (env : Env ι), tokens.size - env.cursor = n → env.cursor ≤ tokens.size →
      visits (trace g tokens env) ≤ Nat.pow (k + 1) n := by
  intro n
  induction n with
  | zero =>
    intro env hn hc
    obtain ⟨-, -, hend⟩ := @Env.stepAlone_spec ι env g tokens
    have hend : (env.stepAlone g tokens).2 = [] ∧ ∀ e, (env.stepAlone g tokens).1 ≠ .ok (.next e) :=
      hend.resolve_left (by omega)
    have hafter : visits (Event.afterStep tokens env (trace g tokens) (env.stepAlone g tokens).1) ≤ 0 :=
      visits_afterStep_le fun e he => absurd he (hend.2 e)
    rw [trace_eq hc, hend.1, List.flatMap_nil, List.append_nil, visits_visit]
    show _ ≤ 1
    omega
  | succ n ih =>
    intro env hn hc
    obtain ⟨-, hs, -⟩ := @Env.stepAlone_spec ι env g tokens
    -- each line one token on steps at most `(k + 1)^n` environments
    have hone : ∀ e : Env ι, e.cursor = env.cursor + 1 → visits (trace g tokens e) ≤ Nat.pow (k + 1) n :=
      fun e he => ih e (by omega) (by omega)
    have hafter : visits (Event.afterStep tokens env (trace g tokens) (env.stepAlone g tokens).1) ≤
        Nat.pow (k + 1) n :=
      visits_afterStep_le fun e he => hone e (hs.next e he)
    have hbranches : visits ((env.stepAlone g tokens).2.flatMap (Event.ofBranch (trace g tokens))) ≤
        (env.stepAlone g tokens).2.length * Nat.pow (k + 1) n := visits_flatMap_le fun b hb => by
        unfold Event.ofBranch
        cases he : b.enterAlone with
        | error f => simp
        | ok e => exact hone e ((Env.stepAlone_branch hb).2.2 e he)
    have hwidth : (env.stepAlone g tokens).2.length + 1 ≤ k := by
      rcases hs.width with h | ⟨s, grp, hg, hlen⟩
      · rw [h]
        simpa using hk
      · exact hlen ▸ hw s grp hg
    rw [trace_eq hc, visits_visit, visits_append]
    have hpow : Nat.pow (k + 1) (n + 1) = k * Nat.pow (k + 1) n + Nat.pow (k + 1) n := by
      rw [show Nat.pow (k + 1) (n + 1) = Nat.pow (k + 1) n * (k + 1) from rfl]
      ring
    have hpos : 1 ≤ Nat.pow (k + 1) n := Nat.one_le_pow _ _ (by omega)
    have hmul : (env.stepAlone g tokens).2.length * Nat.pow (k + 1) n + Nat.pow (k + 1) n ≤
        k * Nat.pow (k + 1) n :=
      calc (env.stepAlone g tokens).2.length * Nat.pow (k + 1) n + Nat.pow (k + 1) n
          = ((env.stepAlone g tokens).2.length + 1) * Nat.pow (k + 1) n := by ring
        _ ≤ k * Nat.pow (k + 1) n := Nat.mul_le_mul_right _ hwidth
    omega

theorem stepAlone_no_groups (hg : ∀ s, g.opening? s = none ∧ g.continuing? s = none) :
    (env.stepAlone g tokens).2 = [] := by
  obtain ⟨-, hs, -⟩ := @Env.stepAlone_spec ι env g tokens
  rcases hs.width with h | ⟨s, grp, hgrp, -⟩
  · exact h
  · rcases hgrp with h | h <;> simp [(hg s).1, (hg s).2] at h

open SearchM in
theorem stepAlone_no_groups_after (hg : ∀ s, g.opening? s = none ∧ g.continuing? s = none)
    (hp : env.pending = []) (hm : env.mode = .afterOperand) (e : Env ι) :
    (env.stepAlone g tokens).1 ≠ .ok (.next e) := by
  refine Env.stepAlone_of_moves (P := fun r _ => r ≠ .ok (.next e)) ?_
  unfold Env.step
  split
  · exact Env.finish_moves.mono fun r p h => h.2 e
  · split
    · rename_i s hm' hval
      rw [hm] at hm'
      cases hm'
    · rename_i x hm' hval
      rw [hm] at hm'
      cases hm'
    · rename_i n hm' hval
      rw [hm] at hm'
      cases hm'
    · unfold Env.continueWith
      split
      · rename_i d s' hob
        rw [hp] at hob
        cases hob
      · unfold Env.continueWithOperators
        split
        · rename_i grp hgrp
          rw [(hg _).2] at hgrp
          cases hgrp
        · split
          · exact Moves.pure fun h => nomatch h
          · exact Moves.pure fun h => nomatch h
    · exact Moves.pure fun h => nomatch h
    · rename_i hm'
      rw [hm] at hm'
      cases hm'

open SearchM in
theorem stepAlone_no_groups_start (hg : ∀ s, g.opening? s = none ∧ g.continuing? s = none)
    (hp : env.pending = []) (hm : env.mode = .expectOperand) :
    ∀ e, (env.stepAlone g tokens).1 = .ok (.next e) → e.pending = [] ∧ e.mode = .afterOperand := by
  refine Env.stepAlone_of_moves
    (P := fun r _ => ∀ e, r = .ok (.next e) → e.pending = [] ∧ e.mode = .afterOperand) ?_
  unfold Env.step
  split
  · exact Env.finish_moves.mono fun r p h e he => absurd he (h.2 e)
  · split
    · unfold Env.openWith
      split
      · rename_i grp hgrp
        rw [(hg _).1] at hgrp
        cases hgrp
      · split
        · exact Moves.pure fun _ h => nomatch h
        · exact Moves.pure fun _ h => nomatch h
    · exact Moves.pure fun e he => by cases he; exact ⟨hp, rfl⟩
    · exact Moves.pure fun e he => by cases he; exact ⟨hp, rfl⟩
    · rename_i s hm' hval
      rw [hm] at hm'
      cases hm'
    · rename_i hm' hval
      rw [hm] at hm'
      cases hm'
    · rename_i hm'
      rw [hm] at hm'
      cases hm'

theorem visits_trace_no_groups (hg : ∀ s, g.opening? s = none ∧ g.continuing? s = none) :
    visits (trace g tokens {}) ≤ 2 := by
  have hafter : visits (Event.afterStep tokens {} (trace g tokens) (Env.stepAlone g tokens {}).1) ≤ 1 := by
    refine visits_afterStep_le fun e he => ?_
    obtain ⟨hp, hm⟩ := stepAlone_no_groups_start hg rfl rfl e he
    obtain ⟨hlt, hce⟩ := Env.stepAlone_next he
    have hnext : visits (Event.afterStep tokens e (trace g tokens) (e.stepAlone g tokens).1) ≤ 0 :=
      visits_afterStep_le fun e' he' => absurd he' (stepAlone_no_groups_after hg hp hm e')
    rw [trace_eq (by omega), stepAlone_no_groups hg, List.flatMap_nil, List.append_nil, visits_visit]
    omega
  rw [trace_eq (Nat.zero_le _), stepAlone_no_groups hg, List.flatMap_nil, List.append_nil,
    visits_visit]
  omega

theorem visits_trace_le_fuel (t : Table ι) (tokens : Array Token) :
    visits (trace (Groups.ofTable t) tokens {}) ≤ (ofTable t).fuel tokens := by
  show _ ≤ Nat.pow (t.entries.length + 1) tokens.size + 1
  by_cases hk : t.entries.length = 0
  · have h : visits (trace (Groups.ofTable t) tokens {}) ≤ 2 :=
      visits_trace_no_groups (Groups.ofTable_of_entries_nil (List.length_eq_zero_iff.mp hk))
    rw [hk, show Nat.pow (0 + 1) tokens.size = 1 from Nat.one_pow _]
    omega
  · have h : visits (trace (Groups.ofTable t) tokens {}) ≤
        Nat.pow (t.entries.length + 1) tokens.size :=
      visits_trace_le (by omega) (fun s grp hgrp => Groups.length_le_of_group hgrp) tokens.size {}
        (by simp) (Nat.zero_le _)
    omega

end Bound

theorem parse_fst (p : Parser ι) (tokens : Array Token) :
    (p.parse tokens).1 = result ((search p.groups tokens (p.fuel tokens) {} none).run.run
      { stats := { tokens := tokens.size } }).1 := by
  rw [parse_eq_parseLists]
  unfold parseLists
  dsimp only
  generalize (search p.groups tokens (p.fuel tokens) {} none).run.run
    { stats := { tokens := tokens.size } } = x
  obtain ⟨r, fr⟩ := x
  rcases r with f | (e | tree) <;> rfl

theorem parse_eq_settle (t : Table ι) (tokens : Array Token) :
    some ((ofTable t).parse tokens).1 = settle none (trace (Groups.ofTable t) tokens {}) := by
  have h := search_settle (g := Groups.ofTable t) ((ofTable t).fuel tokens) {} none
    { stats := { tokens := tokens.size } } (Nat.zero_le _) (fun _ hb => nomatch hb)
    (by simpa using visits_trace_le_fuel t tokens)
  simp only [List.flatMap_nil, List.append_nil] at h
  rw [parse_fst]
  exact h

/-- The failure kept of `errors`, in order, given the one kept before. -/
def kept (best : Option SyntaxError) (errors : List SyntaxError) : Option SyntaxError :=
  errors.foldl (fun best e => some (keepBest best e)) best

theorem settle_of_no_fault : ∀ (best : Option SyntaxError) (events : List (Event ι)),
    (∀ f, Event.fault f ∉ events) →
      settle best events =
        match events.findSome? Event.accepted? with
        | some tree => some (.ok tree)
        | none => (kept best (events.filterMap Event.rejected?)).map fun e => .error (.rejected e)
  | best, [], _ => by simp [settle, kept]
  | best, .visit env :: rest, h => by
    rw [settle, settle_of_no_fault best rest fun f hf => h f (by simp [hf])]
    simp [List.findSome?_cons, List.filterMap_cons, Event.accepted?, Event.rejected?]
  | best, .accept tree :: rest, _ => by simp [settle, List.findSome?_cons, Event.accepted?]
  | best, .reject e :: rest, h => by
    rw [settle, settle_of_no_fault _ rest fun f hf => h f (by simp [hf])]
    simp [List.findSome?_cons, Event.accepted?, Event.rejected?, kept]
  | best, .fault f :: rest, h => absurd (by simp) (h f)

theorem settle_eq_some_cases {r : Except ParseError (Tree ι)} {events : List (Event ι)}
    (hnf : ∀ f, Event.fault f ∉ events) (hp : some r = settle none events) :
    (∃ tree, events.findSome? Event.accepted? = some tree ∧ r = .ok tree) ∨
      (events.findSome? Event.accepted? = none ∧
        ∃ e, kept none (events.filterMap Event.rejected?) = some e ∧ r = .error (.rejected e)) := by
  rw [settle_of_no_fault none _ hnf] at hp
  cases ha : events.findSome? Event.accepted? with
  | some tree =>
    simp only [ha, Option.some.injEq] at hp
    exact .inl ⟨tree, rfl, hp⟩
  | none =>
    cases hk : kept none (events.filterMap Event.rejected?) with
    | none => simp [ha, hk] at hp
    | some e =>
      simp only [ha, hk, Option.map_some, Option.some.injEq] at hp
      exact .inr ⟨rfl, e, rfl, hp⟩

section Valid

variable [DecidableEq ι] {t : Table ι} {tokens : Array Token}

open SearchM in
theorem explore_no_fault (ht : t.Valid) :
    ∀ (depth : Nat) (env : Env ι), env.Valid t tokens →
      ∀ f, Event.fault f ∉ explore (Groups.ofTable t) tokens depth env
  | 0, _, _, _ => by simp [explore]
  | depth + 1, env, hv, f => by
    obtain ⟨a, fr', hrun, hsound, hbranches⟩ := Env.step_safe ht hv {} fun _ hb => nomatch hb
    have hstep : env.stepAlone (Groups.ofTable t) tokens = (.ok a, fr'.branches) := by
      simp [Env.stepAlone, hrun]
    rw [explore, hstep]
    simp only [List.mem_cons, reduceCtorEq, false_or, List.mem_append, List.mem_flatMap, not_or,
      not_exists, not_and]
    refine ⟨?_, fun b hb => ?_⟩
    · cases a with
      | next e => exact explore_no_fault ht depth e hsound f
      | accept tree => simp [Event.afterStep]
      | fail fault => simp [Event.afterStep]
    · obtain ⟨e, fr'', hrun', he, -⟩ := Env.enter_safe ht (hbranches b hb) {} fun _ hb => nomatch hb
      have henter : b.enterAlone = .ok e := by simp [Branch.enterAlone, hrun']
      simp only [Event.ofBranch, henter]
      exact explore_no_fault ht depth e he f

/-- For every table built from levels, parsing over the store that all lines share, with its
stack arenas and node arena, gives what parsing over lines that nothing shares gives, counters
included, and it is a depth-first search over such lines, each line followed to its end before
the alternatives it set aside, the operators of a group tried in their order. No line breaks an
invariant. The parse gives a tree exactly when some line accepts, and then the tree of the first
that does; otherwise it fails with the failure kept of all the lines' failures in the order they
were met: a later one replaces the kept one only when it is further on, or at the same token and
of lower severity. -/
theorem parse_follows_depth_first {levels : List (Level ι)} (h : Table.ofLevels levels = .ok t)
    (tokens : Array Token) :
    (ofTable t).parse tokens = (ofTable t).parseLists tokens ∧
    (∀ f, Event.fault f ∉ trace (Groups.ofTable t) tokens {}) ∧
      (∀ tree, ((ofTable t).parse tokens).1 = .ok tree ↔
        (trace (Groups.ofTable t) tokens {}).findSome? Event.accepted? = some tree) ∧
      (∀ e, ((ofTable t).parse tokens).1 = .error (.rejected e) ↔
        (trace (Groups.ofTable t) tokens {}).findSome? Event.accepted? = none ∧
          kept none ((trace (Groups.ofTable t) tokens {}).filterMap Event.rejected?) = some e) := by
  have hnf : ∀ f, Event.fault f ∉ trace (Groups.ofTable t) tokens {} :=
    explore_no_fault (Table.ofLevels_valid h) _ _ (Env.valid_start t tokens)
  have hcases := settle_eq_some_cases hnf (parse_eq_settle t tokens)
  refine ⟨parse_eq_parseLists _ tokens, hnf, fun tree => ?_, fun e => ?_⟩
  · rcases hcases with ⟨tree', ha, hr⟩ | ⟨ha, e', -, hr⟩ <;> simp [ha, hr]
  · rcases hcases with ⟨tree', ha, hr⟩ | ⟨ha, e', hk, hr⟩
    · simp [ha, hr]
    · simp [ha, hk, hr]

theorem differences_follow_depth_first :
    ∃ t, Table.ofLevels [⟨"sum", .left, [⟨Calculator.Op.sub, .chain, [.sign "-", .hole none]⟩]⟩] =
        .ok t ∧
      let tokens : Array Token := #[⟨.ident "a", ⟨⟨0, 0⟩, ⟨0, 1⟩⟩⟩, ⟨.sign "-", ⟨⟨0, 2⟩, ⟨0, 3⟩⟩⟩]
      (ofTable t).parse tokens = (ofTable t).parseLists tokens ∧
      (∀ f, Event.fault f ∉ trace (Groups.ofTable t) tokens {}) ∧
        (∀ tree, ((ofTable t).parse tokens).1 = .ok tree ↔
          (trace (Groups.ofTable t) tokens {}).findSome? Event.accepted? = some tree) ∧
        (∀ e, ((ofTable t).parse tokens).1 = .error (.rejected e) ↔
          (trace (Groups.ofTable t) tokens {}).findSome? Event.accepted? = none ∧
            kept none ((trace (Groups.ofTable t) tokens {}).filterMap Event.rejected?) = some e) :=
  ⟨_, ofLevels_difference, parse_follows_depth_first ofLevels_difference _⟩

end Valid

end Parser

end Mixfix
