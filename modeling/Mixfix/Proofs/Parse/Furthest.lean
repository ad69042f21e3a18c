import Mixfix.Proofs.Parse.DepthFirst

namespace Mixfix

namespace SyntaxError

theorem prefers_iff (e old : SyntaxError) :
    e.prefers old = true ↔
      old.index < e.index ∨ (e.index = old.index ∧ e.fault.severity < old.fault.severity) := by
  simp [prefers]

/-- The failure `e` placed in `tokens`: with the span of the token it is at. -/
def respan (tokens : Array Token) (e : SyntaxError) : SyntaxError :=
  { e with span := tokens[e.index]?.map (·.span) }

@[simp] theorem respan_index (tokens : Array Token) (e : SyntaxError) :
    (e.respan tokens).index = e.index := rfl

@[simp] theorem respan_fault (tokens : Array Token) (e : SyntaxError) :
    (e.respan tokens).fault = e.fault := rfl

theorem prefers_respan (tokens : Array Token) (e old : SyntaxError) :
    (e.respan tokens).prefers (old.respan tokens) = e.prefers old := rfl

end SyntaxError

namespace Parser

variable {ι : Type}

section Kept

theorem kept_cons (best : Option SyntaxError) (x : SyntaxError) (l : List SyntaxError) :
    kept best (x :: l) = kept (some (keepBest best x)) l := rfl

theorem kept_append (best : Option SyntaxError) (l : List SyntaxError) (x : SyntaxError) :
    kept best (l ++ [x]) = some (keepBest (kept best l) x) := by
  simp [kept, List.foldl_append]

theorem kept_some (b : SyntaxError) : ∀ l : List SyntaxError, ∃ e, kept (some b) l = some e := by
  intro l
  induction l using List.reverseRecOn with
  | nil => exact ⟨b, rfl⟩
  | append_singleton l x _ => exact ⟨_, kept_append _ l x⟩

theorem eq_nil_of_kept_none {l : List SyntaxError} (h : kept none l = none) : l = [] := by
  cases l with
  | nil => rfl
  | cons x l =>
    obtain ⟨e, he⟩ := kept_some (keepBest none x) l
    rw [kept_cons, he] at h
    cases h

theorem kept_spec : ∀ (l : List SyntaxError) (e : SyntaxError), kept none l = some e →
    ∃ i : Nat, l[i]? = some e ∧
      (∀ r ∈ l, r.index ≤ e.index ∧ (r.index = e.index → e.fault.severity ≤ r.fault.severity)) ∧
      ∀ j (r : SyntaxError), j < i → l[j]? = some r → r.index = e.index → e.fault.severity < r.fault.severity := by
  intro l
  -- the fold takes one failure at a time, last first, so the induction adds at the end
  induction l using List.reverseRecOn with
  | nil => intro e h; cases h
  | append_singleton l x ih =>
    intro e h
    rw [kept_append] at h
    cases hk : kept none l with
    | none =>
      obtain rfl := eq_nil_of_kept_none hk
      rw [hk] at h
      simp only [keepBest, Option.some.injEq] at h
      subst h
      refine ⟨0, rfl, fun r hr => ?_, fun j r hj => absurd hj (Nat.not_lt_zero j)⟩
      simp only [List.nil_append, List.mem_singleton] at hr
      subst hr
      omega
    | some c =>
      obtain ⟨i, hi, hmax, hfirst⟩ := ih c hk
      have hil : i < l.length := (List.getElem?_eq_some_iff.1 hi).1
      rw [hk] at h
      simp only [keepBest, Option.some.injEq] at h
      by_cases hp : x.prefers c = true
      · rw [if_pos hp] at h
        subst h
        have hxc := (SyntaxError.prefers_iff _ c).1 hp
        refine ⟨l.length, by simp, fun r hr => ?_, fun j r hj hr hre => ?_⟩
        · rcases List.mem_append.1 hr with hr | hr
          · have := hmax r hr
            omega
          · simp only [List.mem_singleton] at hr
            subst hr
            omega
        · rw [List.getElem?_append_left hj] at hr
          have := hmax r (List.mem_of_getElem? hr)
          omega
      · rw [if_neg hp] at h
        subst h
        have hxc : x.index ≤ c.index ∧ (x.index = c.index → c.fault.severity ≤ x.fault.severity) := by
          rw [SyntaxError.prefers_iff] at hp
          omega
        refine ⟨i, by rw [List.getElem?_append_left hil]; exact hi, fun r hr => ?_,
          fun j r hj hr => ?_⟩
        · rcases List.mem_append.1 hr with hr | hr
          · exact hmax r hr
          · simp only [List.mem_singleton] at hr
            subst hr
            exact hxc
        · rw [List.getElem?_append_left (by omega)] at hr
          exact hfirst j r hj hr

theorem keepBest_respan (tokens : Array Token) (best : Option SyntaxError) (e : SyntaxError) :
    keepBest (best.map (SyntaxError.respan tokens)) (e.respan tokens) =
      (keepBest best e).respan tokens := by
  cases best with
  | none => rfl
  | some b =>
    by_cases hp : e.prefers b = true
    · simp [keepBest, SyntaxError.prefers_respan, hp]
    · simp [keepBest, SyntaxError.prefers_respan, hp]

theorem kept_respan (tokens : Array Token) : ∀ (best : Option SyntaxError) (l : List SyntaxError),
    kept (best.map (SyntaxError.respan tokens)) (l.map (SyntaxError.respan tokens)) =
      (kept best l).map (SyntaxError.respan tokens)
  | _, [] => rfl
  | best, x :: l => by
    rw [List.map_cons, kept_cons, kept_cons, keepBest_respan, ← Option.map_some]
    exact kept_respan tokens _ l

end Kept

/-- An event placed in `tokens`: a failure with the span of the token it is at. -/
def Event.respan (tokens : Array Token) : Event ι → Event ι
  | .visit env => .visit env
  | .accept tree => .accept tree
  | .reject e => .reject (e.respan tokens)
  | .fault f => .fault f

section Explore

variable {g : Groups ι} {tokens : Array Token} {env : Env ι} {depth : Nat}

theorem mem_explore_succ {ev : Event ι} (h : ev ∈ explore g tokens (depth + 1) env) :
    ev = .visit env ∨
      (∃ e, (env.stepAlone g tokens).1 = .ok (.next e) ∧ ev ∈ explore g tokens depth e) ∨
      (∃ f, (env.stepAlone g tokens).1 = .ok (.fail f) ∧ ev = .reject (failureAt tokens env f)) ∨
      (∃ tree, (env.stepAlone g tokens).1 = .ok (.accept tree) ∧ ev = .accept tree) ∨
      (∃ f, (env.stepAlone g tokens).1 = .error f ∧ ev = .fault f) ∨
      ∃ b ∈ (env.stepAlone g tokens).2,
        (∃ e, b.enterAlone = .ok e ∧ ev ∈ explore g tokens depth e) ∨
          ∃ f, b.enterAlone = .error f ∧ ev = .fault f := by
  rw [explore] at h
  rcases List.mem_cons.1 h with h | h
  · exact .inl h
  rcases List.mem_append.1 h with h | h
  · cases hr : (env.stepAlone g tokens).1 with
    | error f =>
      rw [hr] at h
      exact .inr (.inr (.inr (.inr (.inl ⟨f, rfl, List.mem_singleton.1 h⟩))))
    | ok st =>
      rw [hr] at h
      cases st with
      | next e => exact .inr (.inl ⟨e, rfl, h⟩)
      | fail f => exact .inr (.inr (.inl ⟨f, rfl, List.mem_singleton.1 h⟩))
      | accept tree => exact .inr (.inr (.inr (.inl ⟨tree, rfl, List.mem_singleton.1 h⟩)))
  · obtain ⟨b, hb, h⟩ := List.mem_flatMap.1 h
    refine .inr (.inr (.inr (.inr (.inr ⟨b, hb, ?_⟩))))
    unfold Event.ofBranch at h
    cases he : b.enterAlone with
    | ok e =>
      rw [he] at h
      exact .inl ⟨e, rfl, h⟩
    | error f =>
      rw [he] at h
      exact .inr ⟨f, rfl, List.mem_singleton.1 h⟩

theorem visit_mem_explore : Event.visit env ∈ explore g tokens (depth + 1) env := by
  rw [explore]
  exact List.mem_cons_self

theorem mem_explore_of_next {e : Env ι} {ev : Event ι}
    (hr : (env.stepAlone g tokens).1 = .ok (.next e)) (h : ev ∈ explore g tokens depth e) :
    ev ∈ explore g tokens (depth + 1) env := by
  rw [explore, hr]
  exact List.mem_cons_of_mem _ (List.mem_append_left _ h)

theorem mem_explore_of_fail {f : SyntaxFault} (hr : (env.stepAlone g tokens).1 = .ok (.fail f)) :
    Event.reject (failureAt tokens env f) ∈ explore g tokens (depth + 1) env := by
  rw [explore, hr]
  exact List.mem_cons_of_mem _ (List.mem_append_left _ (List.mem_singleton_self _))

theorem mem_explore_of_branch {b : Branch ι} {e : Env ι} {ev : Event ι}
    (hb : b ∈ (env.stepAlone g tokens).2) (he : b.enterAlone = .ok e)
    (h : ev ∈ explore g tokens depth e) : ev ∈ explore g tokens (depth + 1) env := by
  rw [explore]
  refine List.mem_cons_of_mem _ (List.mem_append_right _ (List.mem_flatMap.2 ⟨b, hb, ?_⟩))
  rw [Event.ofBranch, he]
  exact h

theorem reject_at_visit : ∀ (depth : Nat) (env : Env ι) (r : SyntaxError),
    Event.reject r ∈ explore g tokens depth env →
      ∃ v f, Event.visit v ∈ explore g tokens depth env ∧ r = failureAt tokens v f
  | 0, _, _, h => by cases h
  | depth + 1, env, r, h => by
    rcases mem_explore_succ h with h | ⟨e, hr, h⟩ | ⟨f, -, h⟩ | ⟨_, -, h⟩ | ⟨_, -, h⟩ |
        ⟨b, hb, ⟨e, he, h⟩ | ⟨_, -, h⟩⟩
    · cases h
    · obtain ⟨v, f, hv, rfl⟩ := reject_at_visit depth e r h
      exact ⟨v, f, mem_explore_of_next hr hv, rfl⟩
    · cases h
      exact ⟨env, f, visit_mem_explore, rfl⟩
    · cases h
    · cases h
    · obtain ⟨v, f, hv, rfl⟩ := reject_at_visit depth e r h
      exact ⟨v, f, mem_explore_of_branch hb he hv, rfl⟩
    · cases h

theorem visit_cursor_le : ∀ (depth : Nat) (env : Env ι), env.cursor ≤ tokens.size →
    ∀ v, Event.visit v ∈ explore g tokens depth env → v.cursor ≤ tokens.size
  | 0, _, _, _, h => by cases h
  | depth + 1, env, hc, v, h => by
    rcases mem_explore_succ h with h | ⟨e, hr, h⟩ | ⟨_, -, h⟩ | ⟨_, -, h⟩ | ⟨_, -, h⟩ |
        ⟨b, hb, ⟨e, he, h⟩ | ⟨_, -, h⟩⟩
    · cases h
      exact hc
    · obtain ⟨hlt, hce⟩ := Env.stepAlone_next hr
      exact visit_cursor_le depth e (by omega) v h
    · cases h
    · cases h
    · cases h
    · obtain ⟨-, hlt, hce⟩ := Env.stepAlone_branch hb
      exact visit_cursor_le depth e (by rw [hce e he]; omega) v h
    · cases h

theorem visit_le_reject : ∀ (depth : Nat) (env : Env ι), env.cursor ≤ tokens.size →
    tokens.size + 1 ≤ env.cursor + depth →
    (∀ tree, Event.accept tree ∉ explore g tokens depth env) →
    (∀ f, Event.fault f ∉ explore g tokens depth env) →
    ∀ v, Event.visit v ∈ explore g tokens depth env →
      ∃ r, Event.reject r ∈ explore g tokens depth env ∧ v.cursor ≤ r.index
  | 0, _, _, hd, _, _, _, _ => by omega
  | depth + 1, env, hc, hd, hacc, hfault, v, h => by
    have hnext : ∀ e, e.cursor = env.cursor + 1 → env.cursor < tokens.size →
        (∀ ev, ev ∈ explore g tokens depth e → ev ∈ explore g tokens (depth + 1) env) →
        ∀ w, Event.visit w ∈ explore g tokens depth e →
          ∃ r, Event.reject r ∈ explore g tokens (depth + 1) env ∧ w.cursor ≤ r.index := by
      intro e hce hlt hsub w hw
      obtain ⟨r, hr, hwr⟩ := visit_le_reject depth e (by omega) (by omega)
        (fun tree ht => hacc tree (hsub _ ht)) (fun f hf => hfault f (hsub _ hf)) w hw
      exact ⟨r, hsub _ hr, hwr⟩
    rcases mem_explore_succ h with h | ⟨e, hr, h⟩ | ⟨_, -, h⟩ | ⟨_, -, h⟩ | ⟨_, -, h⟩ |
        ⟨b, hb, ⟨e, he, h⟩ | ⟨_, -, h⟩⟩
    · cases h
      cases hr : (env.stepAlone g tokens).1 with
      | error f =>
        exact absurd (by rw [explore, hr]; simp [Event.afterStep]) (hfault f)
      | ok st =>
        cases st with
        | next e =>
          obtain ⟨hlt, hce⟩ := Env.stepAlone_next hr
          obtain ⟨d, rfl⟩ : ∃ d, depth = d + 1 := ⟨depth - 1, by omega⟩
          obtain ⟨r, hr', hwr⟩ := hnext e hce hlt (fun _ => mem_explore_of_next hr) e
            visit_mem_explore
          exact ⟨r, hr', by omega⟩
        | fail f => exact ⟨_, mem_explore_of_fail hr, Nat.le_refl _⟩
        | accept tree =>
          exact absurd (by rw [explore, hr]; simp [Event.afterStep]) (hacc tree)
    · obtain ⟨hlt, hce⟩ := Env.stepAlone_next hr
      exact hnext e hce hlt (fun _ => mem_explore_of_next hr) v h
    · cases h
    · cases h
    · cases h
    · obtain ⟨-, hlt, hce⟩ := Env.stepAlone_branch hb
      exact hnext e (hce e he) hlt (fun _ => mem_explore_of_branch hb he) v h
    · cases h

end Explore

theorem settle_eq_rejected : ∀ (best : Option SyntaxError) (events : List (Event ι))
    (e : SyntaxError), settle best events = some (.error (.rejected e)) →
      (∀ tree, Event.accept tree ∉ events) ∧ (∀ f, Event.fault f ∉ events) ∧
        kept best (events.filterMap Event.rejected?) = some e
  | best, [], e, h => by
    refine ⟨(fun _ h => nomatch h), (fun _ h => nomatch h), ?_⟩
    cases best with
    | none => cases h
    | some b =>
      simp only [settle, Option.map_some, Option.some.injEq, Except.error.injEq,
        ParseError.rejected.injEq] at h
      rw [h]
      rfl
  | best, .visit _ :: rest, e, h => by
    obtain ⟨ha, hf, hk⟩ := settle_eq_rejected best rest e h
    refine ⟨fun tree ht => ?_, fun f hf' => ?_, hk⟩
    · rcases List.mem_cons.1 ht with ht | ht
      · cases ht
      · exact ha tree ht
    · rcases List.mem_cons.1 hf' with hf' | hf'
      · cases hf'
      · exact hf f hf'
  | _, .accept _ :: _, _, h => by cases h
  | best, .reject r :: rest, e, h => by
    obtain ⟨ha, hf, hk⟩ := settle_eq_rejected _ rest e h
    refine ⟨fun tree ht => ?_, fun f hf' => ?_, hk⟩
    · rcases List.mem_cons.1 ht with ht | ht
      · cases ht
      · exact ha tree ht
    · rcases List.mem_cons.1 hf' with hf' | hf'
      · cases hf'
      · exact hf f hf'
  | _, .fault _ :: _, _, h => by cases h

theorem mem_rejected_iff {events : List (Event ι)} {r : SyntaxError} :
    r ∈ events.filterMap Event.rejected? ↔ Event.reject r ∈ events := by
  constructor
  · intro hr
    obtain ⟨ev, hev, hr⟩ := List.mem_filterMap.1 hr
    cases ev <;> simp only [Event.rejected?, reduceCtorEq, Option.some.injEq] at hr
    subst hr
    exact hev
  · intro hr
    exact List.mem_filterMap.2 ⟨_, hr, rfl⟩

section Rejected

variable {t : Table ι} {tokens : Array Token} {e : SyntaxError}

theorem parse_rejected_trace (hp : ((ofTable t).parse tokens).1 = .error (.rejected e)) :
    (∀ tree, Event.accept tree ∉ trace (Groups.ofTable t) tokens {}) ∧
      (∀ f, Event.fault f ∉ trace (Groups.ofTable t) tokens {}) ∧
      kept none ((trace (Groups.ofTable t) tokens {}).filterMap Event.rejected?) = some e := by
  have hs := parse_eq_settle t tokens
  rw [hp] at hs
  exact settle_eq_rejected none _ e hs.symm

theorem parse_rejected_at_visit (hp : ((ofTable t).parse tokens).1 = .error (.rejected e)) :
    ∃ v f, Event.visit v ∈ trace (Groups.ofTable t) tokens {} ∧ v.cursor ≤ tokens.size ∧
      e = failureAt tokens v f := by
  obtain ⟨-, -, hkept⟩ := parse_rejected_trace hp
  obtain ⟨i, hi, -, -⟩ := kept_spec _ e hkept
  obtain ⟨v, f, hv, rfl⟩ := reject_at_visit _ _ e (mem_rejected_iff.1 (List.mem_of_getElem? hi))
  exact ⟨v, f, hv, visit_cursor_le _ _ (Nat.zero_le _) v hv, rfl⟩

theorem visit_le_of_parse_rejected (hp : ((ofTable t).parse tokens).1 = .error (.rejected e)) :
    ∀ env, Event.visit env ∈ trace (Groups.ofTable t) tokens {} → env.cursor ≤ e.index := by
  intro env henv
  obtain ⟨hacc, hfault, hkept⟩ := parse_rejected_trace hp
  obtain ⟨i, -, hmax, -⟩ := kept_spec _ e hkept
  -- every environment stepped has a failure at or after it, and none is after the one kept
  obtain ⟨r, hr, hle⟩ := visit_le_reject _ _ (Nat.zero_le _) (by simp) hacc hfault env henv
  exact Nat.le_trans hle (hmax r (mem_rejected_iff.2 hr)).1

end Rejected

/-- When parsing fails, the failure reported is at the furthest environment the search steps, on
any line: no reading the search tried got further. It is at most at the end of the input, with
the span of the token there if there is one. Of the failures met at that token, in the order the
depth-first search meets them, it has the lowest severity, and it is the first of that severity:
a failure other than an unexpected sign is reported there if there is one. -/
theorem parse_failure_furthest {t : Table ι} {tokens : Array Token} {e : SyntaxError}
    (hp : ((ofTable t).parse tokens).1 = .error (.rejected e)) :
    (∀ env, Event.visit env ∈ trace (Groups.ofTable t) tokens {} → env.cursor ≤ e.index) ∧
      (∃ env, Event.visit env ∈ trace (Groups.ofTable t) tokens {} ∧ env.cursor = e.index) ∧
      e.index ≤ tokens.size ∧ e.span = tokens[e.index]?.map (·.span) ∧
      ∃ i : Nat, ((trace (Groups.ofTable t) tokens {}).filterMap Event.rejected?)[i]? = some e ∧
        ∀ j (r : SyntaxError),
          ((trace (Groups.ofTable t) tokens {}).filterMap Event.rejected?)[j]? = some r →
            r.index = e.index →
              e.fault.severity ≤ r.fault.severity ∧ (j < i → e.fault.severity < r.fault.severity) := by
  obtain ⟨-, -, hkept⟩ := parse_rejected_trace hp
  obtain ⟨i, hi, hmax, hfirst⟩ := kept_spec _ e hkept
  obtain ⟨v, f, hv, hvc, rfl⟩ := parse_rejected_at_visit hp
  refine ⟨visit_le_of_parse_rejected hp, ⟨v, hv, rfl⟩, hvc, rfl, i, hi, fun j r hr hre => ?_⟩
  exact ⟨(hmax r (List.mem_of_getElem? hr)).2 hre, fun hj => hfirst j r hj hr hre⟩

theorem difference_fails_furthest :
    ∃ t, Table.ofLevels [⟨"sum", .left, [⟨Calculator.Op.sub, .chain, [.sign "-", .hole none]⟩]⟩] =
        .ok t ∧
      let tokens : Array Token :=
        #[⟨.ident "a", ⟨⟨0, 0⟩, ⟨0, 1⟩⟩⟩, ⟨.sign "-", ⟨⟨0, 2⟩, ⟨0, 3⟩⟩⟩,
          ⟨.sign "-", ⟨⟨0, 4⟩, ⟨0, 5⟩⟩⟩]
      let e : SyntaxError := ⟨.needsOperandBefore "-", 2, some ⟨⟨0, 4⟩, ⟨0, 5⟩⟩⟩
      ((ofTable t).parse tokens).1 = .error (.rejected e) ∧
        (∀ env, Event.visit env ∈ trace (Groups.ofTable t) tokens {} → env.cursor ≤ e.index) ∧
        (∃ env, Event.visit env ∈ trace (Groups.ofTable t) tokens {} ∧ env.cursor = e.index) ∧
        e.index ≤ tokens.size ∧ e.span = tokens[e.index]?.map (·.span) ∧
        ∃ i : Nat, ((trace (Groups.ofTable t) tokens {}).filterMap Event.rejected?)[i]? = some e ∧
          ∀ j (r : SyntaxError), ((trace (Groups.ofTable t) tokens {}).filterMap Event.rejected?)[j]? = some r →
            r.index = e.index →
              e.fault.severity ≤ r.fault.severity ∧
                (j < i → e.fault.severity < r.fault.severity) := by
  have hp : ((ofTable ⟨[("sum", .left)],
        [⟨⟨Calculator.Op.sub, .chain, [.sign "-", .hole none]⟩, 0, .left, 0, "-", 1, 2, some 0⟩],
        ["-"]⟩).parse
      #[⟨.ident "a", ⟨⟨0, 0⟩, ⟨0, 1⟩⟩⟩, ⟨.sign "-", ⟨⟨0, 2⟩, ⟨0, 3⟩⟩⟩,
        ⟨.sign "-", ⟨⟨0, 4⟩, ⟨0, 5⟩⟩⟩]).1 =
      .error (.rejected ⟨.needsOperandBefore "-", 2, some ⟨⟨0, 4⟩, ⟨0, 5⟩⟩⟩) := by
    cbv
  exact ⟨_, ofLevels_difference, hp, parse_failure_furthest hp⟩

section Congr

variable {g : Groups ι}

theorem visit_mem_respan {tokens : Array Token} {events : List (Event ι)} {v : Env ι}
    (h : Event.visit v ∈ events.map (Event.respan tokens)) : Event.visit v ∈ events := by
  obtain ⟨ev, hev, h⟩ := List.mem_map.1 h
  cases ev <;> simp only [Event.respan, reduceCtorEq, Event.visit.injEq] at h
  subst h
  exact hev

theorem filterMap_rejected_respan (tokens : Array Token) : ∀ events : List (Event ι),
    (events.map (Event.respan tokens)).filterMap Event.rejected? =
      (events.filterMap Event.rejected?).map (SyntaxError.respan tokens)
  | [] => rfl
  | ev :: events => by
    cases ev <;>
      simp [Event.respan, Event.rejected?, List.filterMap_cons, filterMap_rejected_respan tokens events]

theorem visit_mem_explore_mono {tokens : Array Token} : ∀ (d d' : Nat) (env v : Env ι), d ≤ d' →
    Event.visit v ∈ explore g tokens d env → Event.visit v ∈ explore g tokens d' env
  | 0, _, _, _, _, h => by cases h
  | d + 1, d', env, v, hd, h => by
    obtain ⟨d', rfl⟩ : ∃ k, d' = k + 1 := ⟨d' - 1, by omega⟩
    rcases mem_explore_succ h with h | ⟨e, hr, h⟩ | ⟨_, -, h⟩ | ⟨_, -, h⟩ | ⟨_, -, h⟩ |
        ⟨b, hb, ⟨e, he, h⟩ | ⟨_, -, h⟩⟩
    · cases h
      exact visit_mem_explore
    · exact mem_explore_of_next hr (visit_mem_explore_mono d d' e v (by omega) h)
    · cases h
    · cases h
    · cases h
    · exact mem_explore_of_branch hb he (visit_mem_explore_mono d d' e v (by omega) h)
    · cases h

theorem explore_stable {tokens : Array Token} {m : Nat} : ∀ (d d' : Nat) (env : Env ι),
    env.cursor ≤ m → m + 2 ≤ env.cursor + d → d ≤ d' →
    (∀ v, Event.visit v ∈ explore g tokens d env → v.cursor ≤ m) →
      explore g tokens d' env = explore g tokens d env
  | 0, _, _, hc, hd, _, _ => by omega
  | d + 1, d', env, hc, hd, hdd, hm => by
    obtain ⟨d', rfl⟩ : ∃ k, d' = k + 1 := ⟨d' - 1, by omega⟩
    have hnext : ∀ e, e.cursor = env.cursor + 1 →
        (∀ ev, ev ∈ explore g tokens d e → ev ∈ explore g tokens (d + 1) env) →
          explore g tokens d' e = explore g tokens d e := by
      intro e hce hsub
      obtain ⟨k, rfl⟩ : ∃ k, d = k + 1 := ⟨d - 1, by omega⟩
      exact explore_stable (k + 1) d' e (hm e (hsub _ visit_mem_explore)) (by omega) (by omega)
        fun v hv => hm v (hsub _ hv)
    rw [explore, explore]
    congr 2
    · cases hr : (env.stepAlone g tokens).1 with
      | error f => rfl
      | ok st =>
        cases st with
        | next e => exact hnext e (Env.stepAlone_next hr).2 fun _ => mem_explore_of_next hr
        | accept tree => rfl
        | fail f => rfl
    · refine List.flatMap_congr fun b hb => ?_
      unfold Event.ofBranch
      cases he : b.enterAlone with
      | error f => rfl
      | ok e =>
        exact hnext e ((Env.stepAlone_branch hb).2.2 e he) fun _ => mem_explore_of_branch hb he

theorem explore_congr {ts ts' : Array Token} {m : Nat}
    (hv : ∀ i, i ≤ m → ts[i]?.map Token.value = ts'[i]?.map Token.value) :
    ∀ (depth : Nat) (env : Env ι), (∀ v, Event.visit v ∈ explore g ts depth env → v.cursor ≤ m) →
      explore g ts' depth env = (explore g ts depth env).map (Event.respan ts')
  | 0, _, _ => rfl
  | depth + 1, env, hm => by
    have hs : env.stepAlone g ts' = env.stepAlone g ts :=
      (Env.stepAlone_congr (hv _ (hm env visit_mem_explore))).symm
    rw [explore, explore, hs, List.map_cons, List.map_append, List.map_flatMap]
    congr 2
    · cases hr : (env.stepAlone g ts).1 with
      | error f => rfl
      | ok st =>
        cases st with
        | next e => exact explore_congr hv depth e fun v h => hm v (mem_explore_of_next hr h)
        | accept tree => rfl
        | fail f => rfl
    · refine List.flatMap_congr fun b hb => ?_
      unfold Event.ofBranch
      cases he : b.enterAlone with
      | error f => rfl
      | ok e => exact explore_congr hv depth e fun v h => hm v (mem_explore_of_branch hb he h)

theorem parse_rejected_congr {t : Table ι} {ts ts' : Array Token} {e : SyntaxError}
    (hp : ((ofTable t).parse ts).1 = .error (.rejected e)) (hlt : e.index < ts.size)
    (hv : ∀ i, i ≤ e.index → ts[i]?.map Token.value = ts'[i]?.map Token.value) :
    ((ofTable t).parse ts').1 = .error (.rejected (e.respan ts')) := by
  obtain ⟨hacc, hfault, hkept⟩ := parse_rejected_trace hp
  have hm := visit_le_of_parse_rejected hp
  have hlt' : e.index < ts'.size := by
    have h := hv e.index (Nat.le_refl _)
    rw [getElem?_pos ts e.index hlt] at h
    cases h' : ts'[e.index]? with
    | none => rw [h'] at h; cases h
    | some tok => exact (Array.getElem?_eq_some_iff.1 h').1
  have hcongr : explore (Groups.ofTable t) ts' (ts.size + 1) {} =
      (trace (Groups.ofTable t) ts {}).map (Event.respan ts') :=
    explore_congr hv _ _ hm
  have hm' : ∀ v, Event.visit v ∈ explore (Groups.ofTable t) ts' (e.index + 2) {} →
      v.cursor ≤ e.index := by
    intro v hv'
    have h : Event.visit v ∈ (trace (Groups.ofTable t) ts {}).map (Event.respan ts') := by
      rw [← hcongr]
      exact visit_mem_explore_mono _ _ _ _ (by omega) hv'
    exact hm v (visit_mem_respan h)
  have htrace : trace (Groups.ofTable t) ts' {} =
      (trace (Groups.ofTable t) ts {}).map (Event.respan ts') := by
    have h1 : explore (Groups.ofTable t) ts' (ts.size + 1) {} =
        explore (Groups.ofTable t) ts' (e.index + 2) {} :=
      explore_stable _ _ _ (Nat.zero_le _) (by simp) (by omega) hm'
    have h2 : explore (Groups.ofTable t) ts' (ts'.size + 1) {} =
        explore (Groups.ofTable t) ts' (e.index + 2) {} :=
      explore_stable _ _ _ (Nat.zero_le _) (by simp) (by omega) hm'
    rw [← hcongr, h1]
    exact h2
  have hs := parse_eq_settle t ts'
  rw [htrace, settle_of_no_fault] at hs
  · have hnone : ((trace (Groups.ofTable t) ts {}).map (Event.respan ts')).findSome?
        Event.accepted? = none := by
      refine List.findSome?_eq_none_iff.2 fun x hx => ?_
      obtain ⟨ev, hev, rfl⟩ := List.mem_map.1 hx
      cases ev with
      | accept tree => exact absurd hev (hacc tree)
      | visit _ => rfl
      | reject _ => rfl
      | fault _ => rfl
    have hk : kept none (((trace (Groups.ofTable t) ts {}).filterMap Event.rejected?).map
        (SyntaxError.respan ts')) = some (e.respan ts') := by
      have h := kept_respan ts' none ((trace (Groups.ofTable t) ts {}).filterMap Event.rejected?)
      rw [hkept] at h
      exact h
    rw [hnone, filterMap_rejected_respan, hk] at hs
    exact Option.some.inj hs
  · intro f hf
    obtain ⟨ev, hev, h⟩ := List.mem_map.1 hf
    cases ev <;> simp only [Event.respan, reduceCtorEq, Event.fault.injEq] at h
    subst h
    exact hfault _ hev

end Congr

/-- For every table built from levels, a failure before the end of the input depends only on the
tokens up to the one it is at: another input with the same token values there, whatever follows,
fails with the same fault at the same token. So no continuation makes such an input parse, or
moves its failure. In particular, a prefix of an input that parses either parses or fails at its
end. -/
theorem parse_failure_prefix [DecidableEq ι] {levels : List (Level ι)} {t : Table ι}
    (h : Table.ofLevels levels = .ok t) :
    (∀ (ts ts' : Array Token) (e : SyntaxError), ((ofTable t).parse ts).1 = .error (.rejected e) →
      e.index < ts.size → (∀ i, i ≤ e.index → ts[i]?.map Token.value = ts'[i]?.map Token.value) →
        ∃ e', ((ofTable t).parse ts').1 = .error (.rejected e') ∧ e'.fault = e.fault ∧
          e'.index = e.index) ∧
      ∀ (ts : Array Token) (tree : Tree ι) (k : Nat), ((ofTable t).parse ts).1 = .ok tree →
        k ≤ ts.size →
          (∃ tree', ((ofTable t).parse (ts.extract 0 k)).1 = .ok tree') ∨
            ∃ e, ((ofTable t).parse (ts.extract 0 k)).1 = .error (.rejected e) ∧ e.index = k := by
  refine ⟨fun ts ts' e hp hlt hv => ⟨_, parse_rejected_congr hp hlt hv, rfl, rfl⟩, ?_⟩
  intro ts tree k hp hk
  have hsize : (ts.extract 0 k).size = k := by
    rw [Array.size_extract]
    omega
  rcases parse_sound (Table.ofLevels_valid h) (ts.extract 0 k) with ⟨e, he⟩ | ⟨tree', htree, -⟩
  · refine .inr ⟨e, he, ?_⟩
    obtain ⟨v, f, -, hvc, rfl⟩ := parse_rejected_at_visit he
    show v.cursor = k
    rw [hsize] at hvc
    -- a failure inside the prefix would be a failure of the whole input
    refine Nat.le_antisymm hvc (Nat.not_lt.1 fun hlt => ?_)
    have hv : ∀ i, i ≤ v.cursor →
        (ts.extract 0 k)[i]?.map Token.value = ts[i]?.map Token.value := by
      intro i hi
      rw [Array.getElem?_extract, if_pos (by omega), Nat.zero_add]
    have hfail := parse_rejected_congr he (by rw [hsize]; exact hlt) hv
    rw [hp] at hfail
    cases hfail
  · exact .inl ⟨tree', htree⟩

theorem differences_fail_by_prefix :
    ∃ t, Table.ofLevels [⟨"sum", .left, [⟨Calculator.Op.sub, .chain, [.sign "-", .hole none]⟩]⟩] =
        .ok t ∧
      (∀ (ts ts' : Array Token) (e : SyntaxError), ((ofTable t).parse ts).1 = .error (.rejected e) →
        e.index < ts.size → (∀ i, i ≤ e.index → ts[i]?.map Token.value = ts'[i]?.map Token.value) →
          ∃ e', ((ofTable t).parse ts').1 = .error (.rejected e') ∧ e'.fault = e.fault ∧
            e'.index = e.index) ∧
        ∀ (ts : Array Token) (tree : Tree Calculator.Op) (k : Nat),
          ((ofTable t).parse ts).1 = .ok tree → k ≤ ts.size →
            (∃ tree', ((ofTable t).parse (ts.extract 0 k)).1 = .ok tree') ∨
              ∃ e, ((ofTable t).parse (ts.extract 0 k)).1 = .error (.rejected e) ∧ e.index = k :=
  ⟨_, ofLevels_difference, parse_failure_prefix ofLevels_difference⟩

end Parser

end Mixfix
