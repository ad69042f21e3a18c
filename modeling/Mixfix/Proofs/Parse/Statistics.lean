import Mixfix.Proofs.Parse.Counters
import Mixfix.Proofs.Parse.Termination
import Mixfix.Calculator.Session

namespace Mixfix

variable {ι : Type}

/-- The counters of a frontier agree with it: the tokens are counted, each fork is an alternative
taken up or still set aside, and each alternative has at most as many operator nodes as
reductions were counted. -/
structure Frontier.Counted (tokens : Array Token) (fr : Frontier ι) : Prop where
  tokens : fr.stats.tokens = tokens.size
  forks : fr.stats.forks = fr.stats.backtracks + fr.branches.length
  branches : ∀ b ∈ fr.branches, b.env.nodes ≤ fr.stats.reductions

/-- A line with `n` operator nodes agrees with the reductions counted: it has at most as many, and
as many before any backtrack. -/
structure Frontier.Bounds (fr : Frontier ι) (n : Nat) : Prop where
  le : n ≤ fr.stats.reductions
  first : fr.stats.backtracks = 0 → n = fr.stats.reductions

namespace Frontier

variable {tokens : Array Token} {fr fr' : Frontier ι}

theorem Counted.advance (h : fr.Counted tokens) (hadv : fr.Advances fr')
    (hb : ∀ b ∈ fr'.branches, b ∈ fr.branches ∨ b.env.nodes ≤ fr.stats.reductions) :
    fr'.Counted tokens := by
  refine ⟨hadv.tokens.trans h.tokens, ?_, fun b hmem => ?_⟩
  · have := hadv.forks
    have := hadv.backtracks
    have := h.forks
    omega
  · rcases hb b hmem with hold | hle
    · exact (h.branches b hold).trans hadv.reductions
    · exact hle.trans hadv.reductions

theorem Counted.takeUp {b : Branch ι} {rest : List (Branch ι)} (h : fr.Counted tokens)
    (hb : fr.branches = b :: rest) :
    ({ fr with branches := rest, stats.backtracks := fr.stats.backtracks + 1 } : Frontier ι).Counted
      tokens ∧ b.env.nodes ≤ fr.stats.reductions := by
  have hforks := h.forks
  rw [hb, List.length_cons] at hforks
  refine ⟨⟨h.tokens, by dsimp only; omega, fun b' hb' => h.branches b' (by simp [hb, hb'])⟩,
    h.branches b (by simp [hb])⟩

end Frontier

namespace Parser

variable {g : Groups ι} {tokens : Array Token}

/-- The counters of a state of the search loop agree with it. -/
structure Loop.Counted (tokens : Array Token) (s : Loop ι) : Prop where
  frontier : s.frontier.Counted tokens
  line : s.frontier.Bounds s.env.nodes

/-- The counters a search ends with agree with what it returns: the tokens are counted, the
backtracks are at most the forks and all of them after a syntax error, and a tree accepted has at
most as many operator nodes as reductions were counted, exactly as many without a backtrack. -/
structure Ends (tokens : Array Token) (r : Except Fault (Except SyntaxError (Tree ι)))
    (stats : Stats) : Prop where
  tokens : stats.tokens = tokens.size
  backtracks : stats.backtracks ≤ stats.forks
  rejected : ∀ e, r = .ok (.error e) → stats.backtracks = stats.forks
  accepted : ∀ tree, r = .ok (.ok tree) →
    tree.nodes ≤ stats.reductions ∧ (stats.backtracks = 0 → tree.nodes = stats.reductions)

/-- Where a turn leads agrees with the counters: a state that goes on, or the end of the search. -/
def Turn.Counted (tokens : Array Token) : Turn ι → Prop
  | .stop r fr => Ends tokens r fr.stats
  | .next s => s.Counted tokens

theorem Ends.of_counted {r : Except Fault (Except SyntaxError (Tree ι))} {fr : Frontier ι}
    (h : fr.Counted tokens) (hr : ∀ e, r ≠ .ok (.error e))
    (ht : ∀ tree, r = .ok (.ok tree) → fr.Bounds tree.nodes) : Ends tokens r fr.stats := by
  have := h.forks
  exact ⟨h.tokens, by omega, fun e he => absurd he (hr e), fun tree htree =>
    ⟨(ht tree htree).le, (ht tree htree).first⟩⟩

theorem Loop.Counted.step {env : Env ι} {fr fr' : Frontier ι} {r : Except Fault (Step ι)}
    (h : fr.Counted tokens) (hl : fr.Bounds env.nodes)
    (hrun : (env.step g tokens).run.run fr = (r, fr')) :
    fr'.Counted tokens ∧ fr'.stats.backtracks = fr.stats.backtracks ∧
      ∀ st, r = .ok st → fr'.Bounds (Step.nodes env.nodes st) := by
  obtain ⟨hadv, hsize⟩ := (@Env.step_tallies ι env g tokens) fr
  obtain ⟨hf, hs, -⟩ := @Env.stepAlone_spec ι env g tokens
  obtain ⟨stats, hframes⟩ := hf fr
  rw [hrun] at hadv hsize
  rw [hrun, Prod.mk.injEq] at hframes
  have hbranches : fr'.branches = (env.stepAlone g tokens).2 ++ fr.branches := by rw [hframes.2]
  refine ⟨h.advance hadv fun b hb => ?_, hadv.backtracks, fun st hst => ?_⟩
  · rcases List.mem_append.mp (hbranches ▸ hb) with hpushed | hold
    · exact .inr (hs.branches b hpushed ▸ hl.le)
    · exact .inl hold
  · have hn : fr'.stats.reductions + env.nodes = fr.stats.reductions + Step.nodes env.nodes st :=
      hsize st hst
    have hback := hadv.backtracks
    exact ⟨by have := hl.le; omega, fun h0 => by have := hl.first (hback ▸ h0); omega⟩

theorem Loop.Counted.enter {b : Branch ι} {fr fr' : Frontier ι} {r : Except Fault (Env ι)}
    (h : fr.Counted tokens) (hb : b.env.nodes ≤ fr.stats.reductions)
    (hback : fr.stats.backtracks ≠ 0) (hrun : (b.env.enter b.entry).run.run fr = (r, fr')) :
    fr'.Counted tokens ∧ ∀ e, r = .ok e → fr'.Bounds e.nodes := by
  obtain ⟨hadv, hsize⟩ := (@Env.enter_tallies ι b.env b.entry) fr
  obtain ⟨stats, hframes⟩ := b.enterAlone_spec.1 fr
  rw [hrun] at hadv hsize
  rw [hrun, Prod.mk.injEq] at hframes
  have hbranches : fr'.branches = fr.branches := by rw [hframes.2, List.nil_append]
  refine ⟨h.advance hadv fun b' hb' => .inl (hbranches ▸ hb'), fun e he => ?_⟩
  have hn : fr'.stats.reductions + b.env.nodes = fr.stats.reductions + e.nodes := hsize e he
  have hback' := hadv.backtracks
  exact ⟨by omega, fun h0 => absurd (hback' ▸ h0) hback⟩

theorem turn_counted {s : Loop ι} (h : s.Counted tokens) : (turn g tokens s).Counted tokens := by
  obtain ⟨env, best, fr⟩ := s
  obtain ⟨hfr, hl⟩ := h
  unfold turn
  rcases hrun : (env.step g tokens).run.run fr with ⟨r, fr'⟩
  obtain ⟨hfr', hback, hbounds⟩ := Loop.Counted.step hfr hl hrun
  rcases r with f | (e | tree | f)
  · exact Ends.of_counted hfr' (fun _ h => nomatch h) fun _ h => nomatch h
  · exact ⟨hfr', hbounds _ rfl⟩
  · exact Ends.of_counted hfr' (fun _ h => nomatch h) fun _ h => by cases h; exact hbounds _ rfl
  · dsimp only
    cases hb : fr'.branches with
    | nil =>
      dsimp only
      have hforks := hfr'.forks
      rw [hb, List.length_nil] at hforks
      exact ⟨hfr'.tokens, by omega, fun _ _ => by omega, fun _ h => nomatch h⟩
    | cons b rest =>
      -- the alternative taken up makes the backtracks nonzero, so the new line need only fit
      obtain ⟨hfr₁, hbn⟩ := hfr'.takeUp hb
      dsimp only
      split
      · rename_i f' fr'' hrun'
        obtain ⟨hfr'', -⟩ := Loop.Counted.enter hfr₁ hbn (by simp) hrun'
        exact Ends.of_counted hfr'' (fun _ h => nomatch h) fun _ h => nomatch h
      · rename_i e fr'' hrun'
        obtain ⟨hfr'', hbounds'⟩ := Loop.Counted.enter hfr₁ hbn (by simp) hrun'
        exact ⟨hfr'', hbounds' e rfl⟩

/-- What the search meets from a state: the depth-first search from its line, then from each
alternative set aside, the last set aside first. -/
def Loop.events (g : Groups ι) (tokens : Array Token) (s : Loop ι) : List (Event ι) :=
  trace g tokens s.env ++ s.frontier.branches.flatMap (Event.ofBranch (trace g tokens))

/-- The line of a state stands within the tokens, and each alternative set aside before their
end. -/
structure Loop.Inside (tokens : Array Token) (s : Loop ι) : Prop where
  line : s.env.cursor ≤ tokens.size
  branches : ∀ b ∈ s.frontier.branches, b.env.cursor < tokens.size

theorem turn_visits {s s' : Loop ι} (hs : s.Inside tokens) (ht : turn g tokens s = .next s') :
    s'.Inside tokens ∧ visits (s'.events g tokens) + 1 = visits (s.events g tokens) := by
  obtain ⟨env, best, fr⟩ := s
  obtain ⟨hf, -, -⟩ := @Env.stepAlone_spec ι env g tokens
  obtain ⟨stats, hrun⟩ := hf fr
  unfold turn at ht
  rw [hrun] at ht
  have hpushed : ∀ b ∈ (env.stepAlone g tokens).2, b.env.cursor < tokens.size := by
    intro b hb
    obtain ⟨hbe, hlt, -⟩ := Env.stepAlone_branch hb
    rw [hbe]
    exact hlt
  unfold Loop.events
  rw [trace_eq hs.line]
  generalize (env.stepAlone g tokens).2 = pushed at ht hpushed ⊢
  cases hr : (env.stepAlone g tokens).1 with
  | error f => rw [hr] at ht; cases ht
  | ok st =>
    rw [hr] at ht
    cases st with
    | next e =>
      obtain ⟨hlt, hce⟩ := Env.stepAlone_next hr
      cases ht
      refine ⟨⟨by dsimp only; omega, fun b hb => ?_⟩, ?_⟩
      · rcases List.mem_append.mp hb with hb | hb
        · exact hpushed b hb
        · exact hs.branches b hb
      · simp only [Event.afterStep, List.flatMap_append, List.cons_append, visits_visit,
          visits_append]
        omega
    | accept tree => cases ht
    | fail f =>
      dsimp only at ht
      cases hb : pushed ++ fr.branches with
      | nil => rw [hb] at ht; cases ht
      | cons b rest =>
        rw [hb] at ht
        obtain ⟨hfe, hce⟩ := b.enterAlone_spec
        obtain ⟨st', hrun'⟩ := hfe ⟨rest, { stats with backtracks := stats.backtracks + 1 }⟩
        simp only [hrun'] at ht
        have hmem : ∀ x ∈ b :: rest, x.env.cursor < tokens.size := by
          intro x hx
          rw [← hb] at hx
          rcases List.mem_append.mp hx with hx | hx
          · exact hpushed x hx
          · exact hs.branches x hx
        cases he : b.enterAlone with
        | error f' => rw [he] at ht; cases ht
        | ok e =>
          rw [he] at ht
          cases ht
          refine ⟨⟨by rw [hce e he]; exact hmem b (by simp), fun x hx =>
            hmem x (List.mem_cons_of_mem b (by simpa using hx))⟩, ?_⟩
          have hlist : pushed.flatMap (Event.ofBranch (trace g tokens)) ++
              fr.branches.flatMap (Event.ofBranch (trace g tokens)) =
              trace g tokens e ++ rest.flatMap (Event.ofBranch (trace g tokens)) := by
            rw [← List.flatMap_append, hb, List.flatMap_cons, Event.ofBranch, he]
          simp only [Event.afterStep, List.cons_append, hlist, visits_visit, visits_reject,
            visits_append, List.nil_append]

theorem search_ends : ∀ (fuel : Nat) (s : Loop ι), s.Inside tokens → s.Counted tokens →
    visits (s.events g tokens) ≤ fuel →
    Ends tokens ((search g tokens fuel s.env s.best).run.run s.frontier).1
      ((search g tokens fuel s.env s.best).run.run s.frontier).2.stats
  | 0, s, hs, _, hv => by
    rw [Loop.events, trace_eq hs.line] at hv
    simp at hv
  | fuel + 1, ⟨env, best, fr⟩, hs, hc, hv => by
    rw [search_succ]
    have ht := turn_counted (g := g) hc
    cases hturn : turn g tokens ⟨env, best, fr⟩ with
    | stop r fr' =>
      rw [hturn] at ht
      exact ht
    | next s' =>
      rw [hturn] at ht
      obtain ⟨hs', hv'⟩ := turn_visits hs hturn
      exact search_ends fuel s' hs' ht (by omega)

theorem parse_snd (p : Parser ι) (tokens : Array Token) :
    (p.parse tokens).2 = ((search p.groups tokens (p.fuel tokens) {} none).run.run
      { stats := { tokens := tokens.size } }).2.stats := by
  rw [parse_eq_parseLists]
  unfold parseLists
  dsimp only
  generalize (search p.groups tokens (p.fuel tokens) {} none).run.run
    { stats := { tokens := tokens.size } } = x
  obtain ⟨r, fr⟩ := x
  rcases r with f | (e | tree) <;> rfl

theorem result_eq_rejected {r : Except Fault (Except SyntaxError (Tree ι))} {e : SyntaxError} :
    result r = .error (.rejected e) ↔ r = .ok (.error e) := by
  rcases r with f | (e' | tree) <;> simp [result]

theorem result_eq_ok {r : Except Fault (Except SyntaxError (Tree ι))} {tree : Tree ι} :
    result r = .ok tree ↔ r = .ok (.ok tree) := by
  rcases r with f | (e | tree') <;> simp [result]

theorem parse_ends (t : Table ι) (tokens : Array Token) :
    ∃ r, ((ofTable t).parse tokens).1 = result r ∧ Ends tokens r ((ofTable t).parse tokens).2 := by
  refine ⟨_, parse_fst _ tokens, ?_⟩
  rw [parse_snd]
  refine search_ends _ ⟨{}, none, { stats := { tokens := tokens.size } }⟩
    ⟨Nat.zero_le _, fun _ hb => nomatch hb⟩
    ⟨⟨rfl, rfl, fun _ hb => nomatch hb⟩, ⟨Nat.le_refl 0, fun _ => rfl⟩⟩ ?_
  simp only [Loop.events, List.flatMap_nil, List.append_nil]
  exact visits_trace_le_fuel t tokens

/-- Parsing counts every token. It takes up at most as many alternatives as it sets aside, and all
of them when it ends with a syntax error. The tree it gives has at most as many operator nodes as
operators were completed on all lines, abandoned ones included, and exactly as many when no
alternative was taken up. The counters a session keeps after a parse are those of that parse
alone, whatever it parsed before. -/
theorem parse_counts (t : Table ι) (tokens : Array Token) :
    ((ofTable t).parse tokens).2.tokens = tokens.size ∧
      ((ofTable t).parse tokens).2.backtracks ≤ ((ofTable t).parse tokens).2.forks ∧
      (∀ e, ((ofTable t).parse tokens).1 = .error (.rejected e) →
        ((ofTable t).parse tokens).2.backtracks = ((ofTable t).parse tokens).2.forks) ∧
      (∀ tree, ((ofTable t).parse tokens).1 = .ok tree →
        tree.nodes ≤ ((ofTable t).parse tokens).2.reductions ∧
          (((ofTable t).parse tokens).2.backtracks = 0 →
            tree.nodes = ((ofTable t).parse tokens).2.reductions)) ∧
      ∀ (s s' : Calculator.Session) (source : String), s.parser = s'.parser →
        (∃ ts, s.tokens source = .ok ts) →
          (s.parse source).2.stats = (s'.parse source).2.stats := by
  obtain ⟨r, hr, hends⟩ := parse_ends t tokens
  refine ⟨hends.tokens, hends.backtracks, fun e he => ?_, fun tree ht => ?_, ?_⟩
  · exact hends.rejected e (result_eq_rejected.mp (hr ▸ he))
  · exact hends.accepted tree (result_eq_ok.mp (hr ▸ ht))
  · rintro s s' source hp ⟨ts, hts⟩
    have hts' : s'.tokens source = .ok ts := by
      rw [← hts]
      simp only [Calculator.Session.tokens, Calculator.Session.table, hp]
    simp only [Calculator.Session.parse, hts, hts', hp]

end Parser

end Mixfix
