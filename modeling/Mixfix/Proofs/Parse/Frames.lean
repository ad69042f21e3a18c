import Mixfix.Proofs.Grammar.Validity
import Mixfix.Parse.Search

namespace Mixfix

namespace SearchM

variable {ι α β : Type}

/-- From every frontier, `m` gives `r` and sets `pushed` aside before the alternatives there; it
changes nothing else but the counters. -/
def Frames (m : SearchM ι α) (r : Except Fault α) (pushed : List (Branch ι)) : Prop :=
  ∀ fr : Frontier ι, ∃ stats, m.run.run fr = (r, { branches := pushed ++ fr.branches, stats })

/-- `m` reads nothing of the frontier, and what it gives and sets aside satisfies `post`. -/
def Moves (m : SearchM ι α) (post : Except Fault α → List (Branch ι) → Prop) : Prop :=
  ∃ r pushed, Frames m r pushed ∧ post r pushed

variable {m : SearchM ι α} {r : Except Fault α} {p q : List (Branch ι)}
  {post : Except Fault α → List (Branch ι) → Prop}

theorem Frames.pure (a : α) : Frames (pure a : SearchM ι α) (.ok a) [] :=
  fun fr => ⟨fr.stats, rfl⟩

theorem Frames.throw (f : Fault) : Frames (throw f : SearchM ι α) (.error f) [] :=
  fun fr => ⟨fr.stats, rfl⟩

theorem Frames.bind_ok {f : α → SearchM ι β} {a : α} {r : Except Fault β}
    (hm : Frames m (.ok a) p) (hf : Frames (f a) r q) : Frames (m >>= f) r (q ++ p) := by
  intro fr
  obtain ⟨s₁, h₁⟩ := hm fr
  obtain ⟨s₂, h₂⟩ := hf { branches := p ++ fr.branches, stats := s₁ }
  refine ⟨s₂, ?_⟩
  simp only [ExceptT.run_bind, StateT.run_bind, h₁]
  rw [List.append_assoc]
  exact h₂

theorem Frames.bind_error {f : α → SearchM ι β} {e : Fault} (hm : Frames m (.error e) p) :
    Frames (m >>= f) (.error e) p := by
  intro fr
  obtain ⟨s₁, h₁⟩ := hm fr
  refine ⟨s₁, ?_⟩
  simp only [ExceptT.run_bind, StateT.run_bind, h₁]
  rfl

theorem Frames.run_empty (h : Frames m r p) : ((m.run.run {}).1, (m.run.run {}).2.branches) = (r, p) := by
  obtain ⟨s, hs⟩ := h {}
  rw [hs]
  simp

theorem Moves.pure {a : α} (h : post (.ok a) []) : Moves (pure a : SearchM ι α) post :=
  ⟨_, _, Frames.pure a, h⟩

theorem Moves.throw {f : Fault} (h : post (.error f) []) : Moves (throw f : SearchM ι α) post :=
  ⟨_, _, Frames.throw f, h⟩

theorem Moves.mono {P Q : Except Fault α → List (Branch ι) → Prop} (hm : Moves m P)
    (h : ∀ r p, P r p → Q r p) : Moves m Q := by
  obtain ⟨r, p, hf, hp⟩ := hm
  exact ⟨r, p, hf, h r p hp⟩

theorem Moves.bind {f : α → SearchM ι β} {P : Except Fault α → List (Branch ι) → Prop}
    {Q : Except Fault β → List (Branch ι) → Prop} (hm : Moves m P)
    (hf : ∀ a p, P (.ok a) p → Moves (f a) fun r q => Q r (q ++ p))
    (he : ∀ e p, P (.error e) p → Q (.error e) p) : Moves (m >>= f) Q := by
  obtain ⟨r, p, hfr, hp⟩ := hm
  cases r with
  | error e => exact ⟨_, _, hfr.bind_error, he e p hp⟩
  | ok a =>
    obtain ⟨r', q, hfr', hq⟩ := hf a p hp
    exact ⟨r', q ++ p, hfr.bind_ok hfr', hq⟩

theorem Moves.map {f : α → β} {P : Except Fault α → List (Branch ι) → Prop}
    {Q : Except Fault β → List (Branch ι) → Prop} (hm : Moves m P)
    (h : ∀ r p, P r p → Q (f <$> r) p) : Moves (f <$> m) Q := by
  obtain ⟨r, p, hfr, hp⟩ := hm
  refine ⟨f <$> r, p, fun fr => ?_, h r p hp⟩
  obtain ⟨s, hs⟩ := hfr fr
  refine ⟨s, ?_⟩
  simp only [ExceptT.run_map, StateT.run_map, hs]
  cases r <;> rfl

end SearchM

namespace Env

open SearchM

variable {ι : Type} {env : Env ι}

/-- A line that lands at cursor `c`, if it does not break an invariant, and sets nothing aside. -/
def Lands (c : Nat) (r : Except Fault (Env ι)) (pushed : List (Branch ι)) : Prop :=
  pushed = [] ∧ ∀ e, r = .ok e → e.cursor = c

theorem reduce_moves : Moves env.reduce (Lands env.cursor) := by
  cases hp : env.pending with
  | nil =>
    refine ⟨.error .stackUnderflow, [], fun fr => ⟨fr.stats, ?_⟩, rfl, fun _ h => nomatch h⟩
    simp [reduce, hp]
    rfl
  | cons top below =>
    by_cases hn : env.operands.length < top.entry.arity
    · refine ⟨.error .stackUnderflow, [], fun fr => ⟨fr.stats, ?_⟩, rfl, fun _ h => nomatch h⟩
      simp [reduce, hp, hn]
      rfl
    · refine ⟨.ok { env with
          operands := .node top.entry.operator.id (env.operands.take top.entry.arity).reverse ::
            env.operands.drop top.entry.arity
          pending := below }, [],
        fun fr => ⟨{ fr.stats with reductions := fr.stats.reductions + 1 }, ?_⟩, rfl,
        fun e he => by cases he; rfl⟩
      simp [reduce, hp, hn]
      rfl

theorem Lands.bind {c c' : Nat} {m : SearchM ι (Env ι)} {f : Env ι → SearchM ι (Env ι)}
    (hm : Moves m (Lands c)) (hf : ∀ a, a.cursor = c → Moves (f a) (Lands c')) :
    Moves (m >>= f) (Lands c') := by
  refine Moves.bind hm (fun a p ha => (hf a (ha.2 a rfl)).mono ?_) fun e p he => ⟨he.1, ?_⟩
  · rintro r q ⟨rfl, hq⟩
    exact ⟨by simp [ha.1], hq⟩
  · intro _ h
    cases h

theorem reduceTimes_moves : ∀ (n : Nat) (env : Env ι), Moves (env.reduceTimes n) (Lands env.cursor)
  | 0, env => Moves.pure ⟨rfl, fun e he => by cases he; rfl⟩
  | n + 1, env => Lands.bind reduce_moves fun a ha => ha ▸ reduceTimes_moves n a

theorem unwind_moves (priority : Nat) : Moves (env.unwind priority) (Lands env.cursor) :=
  reduceTimes_moves _ env

theorem advance_moves : Moves env.advance (Lands env.cursor) := by
  unfold advance
  split
  · split
    · split
      · exact Moves.pure ⟨rfl, fun e he => by cases he; rfl⟩
      · exact Moves.pure ⟨rfl, fun e he => by cases he; rfl⟩
    · split
      · exact Moves.pure ⟨rfl, fun e he => by cases he; rfl⟩
      · exact Lands.bind reduce_moves fun a ha =>
          Moves.pure ⟨rfl, fun e he => by cases he; exact ha⟩
  · exact Moves.throw ⟨rfl, fun _ h => nomatch h⟩

theorem consume_moves : Moves env.consume (Lands (env.cursor + 1)) := by
  unfold consume
  split
  · exact advance_moves
  · exact Moves.throw ⟨rfl, fun _ h => nomatch h⟩

theorem enter_moves (e : Entry ι) : Moves (env.enter e) (Lands (env.cursor + 1)) := by
  unfold enter
  split
  · refine Lands.bind (unwind_moves _) fun a ha => ?_
    rw [← ha]
    exact advance_moves
  · refine Lands.bind (Moves.pure ⟨rfl, fun e he => by cases he; rfl⟩) fun a ha => ?_
    rw [← ha]
    exact advance_moves

theorem fork_moves (group : List (Entry ι)) :
    Moves (env.fork group) fun r p =>
      p = group.tail.map (⟨env, ·⟩) ∧ ∀ e, r = .ok e → e.cursor = env.cursor + 1 := by
  cases group with
  | nil => exact Moves.throw ⟨rfl, fun _ h => nomatch h⟩
  | cons first rest =>
    refine Moves.bind (P := fun r p => p = rest.map (⟨env, ·⟩) ∧ r = .ok ⟨⟩) ?_
      (fun _ p hp => (enter_moves first).mono ?_) fun _ _ h => nomatch h.2
    · exact ⟨.ok ⟨⟩, rest.map (⟨env, ·⟩), fun fr => ⟨_, rfl⟩, rfl, rfl⟩
    · rintro r q ⟨rfl, hq⟩
      exact ⟨by simp [hp.1], hq⟩

/-- What a step from `env` may lead to: a next environment one token on, and alternatives set
aside at `env`, one fewer than the operators of a group. -/
structure Steps (g : Groups ι) (env : Env ι) (r : Except Fault (Step ι))
    (pushed : List (Branch ι)) : Prop where
  next : ∀ e, r = .ok (.next e) → e.cursor = env.cursor + 1
  branches : ∀ b ∈ pushed, b.env = env
  width : pushed = [] ∨ ∃ s group,
    (g.opening? s = some group ∨ g.continuing? s = some group) ∧ pushed.length + 1 = group.length

variable {g : Groups ι} {tokens : Array Token}

theorem Steps.of_final {r : Except Fault (Step ι)} (h : ∀ e, r ≠ .ok (.next e)) : env.Steps g r [] :=
  ⟨fun e he => absurd he (h e), (fun _ hb => nomatch hb), .inl rfl⟩

theorem Steps.of_error (f : Fault) : env.Steps g (.error f) [] :=
  Steps.of_final fun _ h => nomatch h

theorem Steps.of_fork {s : String} {group : List (Entry ι)}
    (hg : g.opening? s = some group ∨ g.continuing? s = some group) :
    Moves (Step.next <$> env.fork group) (env.Steps g) := by
  refine Moves.map (fork_moves group) fun r p ⟨hp, hc⟩ => ⟨fun e he => ?_, fun b hb => ?_, ?_⟩
  · cases r with
    | error _ => cases he
    | ok e' =>
      cases he
      exact hc e rfl
  · subst hp
    obtain ⟨x, -, rfl⟩ := List.mem_map.mp hb
    rfl
  · cases group with
    | nil => exact .inl (by simp [hp])
    | cons first rest => exact .inr ⟨s, _, hg, by simp [hp]⟩

theorem required_moves : Moves env.required fun _ p => p = [] := by
  unfold required
  split
  · exact Moves.pure rfl
  · exact Moves.throw rfl

theorem finish_moves : Moves env.finish fun r p => p = [] ∧ ∀ e, r ≠ .ok (.next e) := by
  unfold finish
  split
  · exact Moves.pure ⟨rfl, fun _ h => nomatch h⟩
  · exact Moves.bind required_moves (fun _ p hp => Moves.pure ⟨by simp [hp], fun _ h => nomatch h⟩)
      fun _ _ hp => ⟨hp, fun _ h => nomatch h⟩
  · split
    · exact Moves.pure ⟨rfl, fun _ h => nomatch h⟩
    · refine Moves.bind (P := Lands env.cursor) (reduceTimes_moves _ env) (fun a p hp => ?_)
        fun _ _ hp => ⟨hp.1, fun _ h => nomatch h⟩
      split
      · exact Moves.pure ⟨by simp [hp.1], fun _ h => nomatch h⟩
      · exact Moves.throw ⟨by simp [hp.1], fun _ h => nomatch h⟩

theorem openWith_moves (sign : String) : Moves (openWith g env sign) (env.Steps g) := by
  unfold openWith
  split
  · rename_i group hg
    exact Steps.of_fork (.inl hg)
  · split
    · exact Moves.pure (Steps.of_final fun _ h => nomatch h)
    · exact Moves.pure (Steps.of_final fun _ h => nomatch h)

theorem continueWithOperators_moves (sign : String) :
    Moves (continueWithOperators g env sign) (env.Steps g) := by
  unfold continueWithOperators
  split
  · rename_i group hg
    exact Steps.of_fork (.inr hg)
  · split
    · exact Moves.pure (Steps.of_final fun _ h => nomatch h)
    · exact Moves.pure (Steps.of_final fun _ h => nomatch h)

theorem continueWith_moves (sign : String) : Moves (continueWith g env sign) (env.Steps g) := by
  unfold continueWith
  split
  · split
    · refine Moves.bind (P := Lands env.cursor) (reduceTimes_moves _ env) (fun a p hp => ?_)
        fun f _ ⟨hp, _⟩ => by subst hp; exact Steps.of_error f
      obtain ⟨rfl, ha⟩ := hp
      refine Moves.bind (P := Lands (a.cursor + 1)) consume_moves (fun a' p' hp' => ?_)
        fun f _ ⟨hp', _⟩ => by subst hp'; exact Steps.of_error f
      obtain ⟨rfl, ha'⟩ := hp'
      refine Moves.pure ⟨fun e he => ?_, (fun _ hb => nomatch hb), .inl rfl⟩
      cases he
      rw [ha' a' rfl, ha a rfl]
    · exact continueWithOperators_moves sign
  · exact continueWithOperators_moves sign

theorem step_moves :
    Moves (env.step g tokens) fun r p =>
      env.Steps g r p ∧ (env.cursor < tokens.size ∨ p = [] ∧ ∀ e, r ≠ .ok (.next e)) := by
  unfold step
  split
  · exact finish_moves.mono fun r p ⟨hp, hr⟩ => ⟨hp ▸ Steps.of_final hr, .inr ⟨hp, hr⟩⟩
  · rename_i tok htok
    have hlt : env.cursor < tokens.size := (Array.getElem?_eq_some_iff.mp htok).1
    refine Moves.mono (P := env.Steps g) ?_ fun r p h => ⟨h, .inl hlt⟩
    split
    · exact openWith_moves _
    · exact Moves.pure ⟨fun e he => by cases he; rfl, (fun _ hb => nomatch hb), .inl rfl⟩
    · exact Moves.pure ⟨fun e he => by cases he; rfl, (fun _ hb => nomatch hb), .inl rfl⟩
    · exact continueWith_moves _
    · exact Moves.pure (Steps.of_final fun _ h => nomatch h)
    · refine Moves.bind (Q := env.Steps g) required_moves (fun req p hp => ?_)
        fun f _ hp => by subst hp; exact Steps.of_error f
      subst hp
      split
      · split
        · refine Moves.map consume_moves fun r p ⟨hp, hc⟩ => ?_
          subst hp
          refine ⟨fun e he => ?_, (fun _ hb => nomatch hb), .inl rfl⟩
          cases r with
          | error _ => cases he
          | ok e' =>
            cases he
            exact hc e rfl
        · exact Moves.pure (Steps.of_final fun _ h => nomatch h)
      · exact Moves.pure (Steps.of_final fun _ h => nomatch h)

/-- A step taken alone, from no alternatives: what it gives, and the alternatives it sets aside. -/
def stepAlone (g : Groups ι) (tokens : Array Token) (env : Env ι) :
    Except Fault (Step ι) × List (Branch ι) :=
  (((env.step g tokens).run.run {}).1, ((env.step g tokens).run.run {}).2.branches)

theorem stepAlone_spec :
    Frames (env.step g tokens) (env.stepAlone g tokens).1 (env.stepAlone g tokens).2 ∧
      env.Steps g (env.stepAlone g tokens).1 (env.stepAlone g tokens).2 ∧
      (env.cursor < tokens.size ∨
        (env.stepAlone g tokens).2 = [] ∧ ∀ e, (env.stepAlone g tokens).1 ≠ .ok (.next e)) := by
  obtain ⟨r, p, hf, hpost⟩ := @step_moves ι env g tokens
  have h : env.stepAlone g tokens = (r, p) := hf.run_empty
  rw [h]
  exact ⟨hf, hpost⟩

theorem stepAlone_of_moves {P : Except Fault (Step ι) → List (Branch ι) → Prop}
    (h : Moves (env.step g tokens) P) : P (env.stepAlone g tokens).1 (env.stepAlone g tokens).2 := by
  obtain ⟨r, p, hf, hp⟩ := h
  have hr : env.stepAlone g tokens = (r, p) := hf.run_empty
  rw [hr]
  exact hp

theorem step_congr_at {ts ts' : Array Token}
    (hv : ts[env.cursor]?.map Token.value = ts'[env.cursor]?.map Token.value) :
    env.step g ts = env.step g ts' := by
  unfold Env.step
  cases h1 : ts[env.cursor]? with
  | none =>
    cases h2 : ts'[env.cursor]? with
    | none => rfl
    | some tok' => rw [h1, h2] at hv; cases hv
  | some tok =>
    cases h2 : ts'[env.cursor]? with
    | none => rw [h1, h2] at hv; cases hv
    | some tok' =>
      rw [h1, h2] at hv
      simp only [Option.map_some, Option.some.injEq] at hv
      simp only [hv]

theorem stepAlone_congr {ts ts' : Array Token}
    (hv : ts[env.cursor]?.map Token.value = ts'[env.cursor]?.map Token.value) :
    env.stepAlone g ts = env.stepAlone g ts' := by
  unfold stepAlone
  rw [step_congr_at hv]

end Env

/-- Taking up an alternative alone, from no others: the environment its operator begins. -/
def Branch.enterAlone {ι : Type} (b : Branch ι) : Except Fault (Env ι) :=
  ((b.env.enter b.entry).run.run {}).1

theorem Branch.enterAlone_spec {ι : Type} (b : Branch ι) :
    SearchM.Frames (b.env.enter b.entry) b.enterAlone [] ∧
      ∀ e, b.enterAlone = .ok e → e.cursor = b.env.cursor + 1 := by
  obtain ⟨r, p, hf, hp, hc⟩ := @Env.enter_moves ι b.env b.entry
  subst hp
  have h : b.enterAlone = r := congrArg Prod.fst hf.run_empty
  rw [h]
  exact ⟨hf, hc⟩

namespace Env

variable {ι : Type} {env : Env ι} {g : Groups ι} {tokens : Array Token}

theorem stepAlone_next {e : Env ι} (hr : (env.stepAlone g tokens).1 = .ok (.next e)) :
    env.cursor < tokens.size ∧ e.cursor = env.cursor + 1 := by
  obtain ⟨-, hs, hend⟩ := @stepAlone_spec ι env g tokens
  refine ⟨?_, hs.next e hr⟩
  rcases hend with hlt | ⟨-, hno⟩
  · exact hlt
  · exact absurd hr (hno e)

theorem stepAlone_branch {b : Branch ι} (hb : b ∈ (env.stepAlone g tokens).2) :
    b.env = env ∧ env.cursor < tokens.size ∧ ∀ e, b.enterAlone = .ok e → e.cursor = env.cursor + 1 := by
  obtain ⟨-, hs, hend⟩ := @stepAlone_spec ι env g tokens
  have hbe : b.env = env := hs.branches b hb
  refine ⟨hbe, ?_, fun e he => by rw [b.enterAlone_spec.2 e he, hbe]⟩
  rcases hend with hlt | ⟨hnil, -⟩
  · exact hlt
  · rw [hnil] at hb
    cases hb

end Env

end Mixfix
