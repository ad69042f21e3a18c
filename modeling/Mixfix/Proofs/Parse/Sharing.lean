import Mathlib
import Mixfix.Parse.Shared
import Mixfix.Stack.Lemmas

namespace Mixfix

namespace Stack.Arena

variable {α : Type} {a b c : Arena α}

def Grows (a b : Arena α) : Prop :=
  ∃ more, b.links = a.links ++ more

theorem Grows.refl (a : Arena α) : a.Grows a :=
  ⟨#[], by simp⟩

theorem Grows.trans (hab : a.Grows b) (hbc : b.Grows c) : a.Grows c := by
  obtain ⟨m₁, h₁⟩ := hab
  obtain ⟨m₂, h₂⟩ := hbc
  exact ⟨m₁ ++ m₂, by rw [h₂, h₁, Array.append_assoc]⟩

theorem grows_push (a : Arena α) (h : Handle) (v : α) : a.Grows (a.push h v).1 :=
  ⟨#[⟨v, h.top⟩], by simp [push]⟩

theorem Grows.getElem? (hg : a.Grows b) {i : Nat} (hi : i < a.links.size) :
    b.links[i]? = a.links[i]? := by
  obtain ⟨more, hm⟩ := hg
  rw [hm, Array.getElem?_append_left hi]

theorem Grows.size_le (hg : a.Grows b) : a.links.size ≤ b.links.size := by
  obtain ⟨more, hm⟩ := hg
  rw [hm, Array.size_append]
  omega

theorem Grows.valuesFrom (ha : a.Descending) (hg : a.Grows b) :
    ∀ (n : Nat) (o : Option Nat), (∀ i, o = some i → i < a.links.size) →
      b.valuesFrom n o = a.valuesFrom n o := by
  intro n
  induction n with
  | zero => intro o _; rw [valuesFrom_zero, valuesFrom_zero]
  | succ n ih =>
    intro o ho
    cases o with
    | none => rw [valuesFrom_none, valuesFrom_none]
    | some i =>
      rw [valuesFrom_some, valuesFrom_some, hg.getElem? (ho i rfl)]
      cases hl : a.links[i]? with
      | none => rfl
      | some l =>
        simp only
        rw [ih l.parent]
        intro p hp
        have := ha i l p hl hp
        have := ho i rfl
        omega

theorem Grows.toList (ha : a.Descending) (hg : a.Grows b) {h : Handle} (hh : a.Holds h) :
    b.toList h = a.toList h := by
  unfold Arena.toList
  rw [hg.valuesFrom ha _ _ hh.1]
  apply valuesFrom_fuel ha
  intro i hi
  exact ⟨lt_of_lt_of_le (hh.1 i hi) hg.size_le, hh.1 i hi⟩

theorem Grows.holds (ha : a.Descending) (hg : a.Grows b) {h : Handle} (hh : a.Holds h) :
    b.Holds h :=
  ⟨fun i hi => lt_of_lt_of_le (hh.1 i hi) hg.size_le, by rw [hg.toList ha hh]; exact hh.2⟩

theorem pop_eq_none_iff (ha : a.Descending) {h : Handle} (hh : a.Holds h) :
    a.pop h = none ↔ a.toList h = [] := by
  constructor
  · exact toList_of_pop_none hh
  · intro hnil
    cases hp : a.pop h with
    | none => rfl
    | some r =>
      obtain ⟨g, v⟩ := r
      rw [toList_pop ha hp] at hnil
      cases hnil

theorem exists_pop (ha : a.Descending) {h : Handle} (hh : a.Holds h) {v : α} {vs : List α}
    (hv : a.toList h = v :: vs) : ∃ g, a.pop h = some (g, v) ∧ a.Holds g ∧ a.toList g = vs := by
  cases hp : a.pop h with
  | none =>
    rw [toList_of_pop_none hh hp] at hv
    cases hv
  | some r =>
    obtain ⟨g, w⟩ := r
    have hl := toList_pop ha hp
    rw [hv, List.cons.injEq] at hl
    obtain ⟨rfl, hvs⟩ := hl
    exact ⟨g, rfl, hh.pop ha hp, hvs.symm⟩

end Stack.Arena

section Run

variable {σ ε α β : Type} {x : ExceptT ε (StateM σ) α} {f : α → ExceptT ε (StateM σ) β} {s s₁ : σ}

theorem run_bind_ok {a : α} (h : x.run.run s = (.ok a, s₁)) :
    (x >>= f).run.run s = (f a).run.run s₁ := by
  simp only [ExceptT.run_bind, StateT.run_bind, h]
  rfl

theorem run_bind_error {e : ε} (h : x.run.run s = (.error e, s₁)) :
    (x >>= f).run.run s = (.error e, s₁) := by
  simp only [ExceptT.run_bind, StateT.run_bind, h]
  rfl

theorem run_get_bind {g : σ → ExceptT ε (StateM σ) β} :
    ((get : ExceptT ε (StateM σ) σ) >>= g).run.run s = (g s).run.run s := rfl

theorem run_modify_bind {g : PUnit → ExceptT ε (StateM σ) β} {f : σ → σ} :
    ((modify f : ExceptT ε (StateM σ) PUnit) >>= g).run.run s = (g ⟨⟩).run.run (f s) := rfl

end Run

namespace Env

variable {ι : Type}

theorem reduce_run_nil {env : Env ι} {fr : Frontier ι}
    (hp : env.pending = []) : env.reduce.run.run fr = (.error .stackUnderflow, fr) := by
  simp [reduce, hp]
  rfl

theorem reduce_run_short {env : Env ι} {fr : Frontier ι} {top : Pending ι}
    {below : List (Pending ι)} (hp : env.pending = top :: below)
    (hn : env.operands.length < top.entry.arity) :
    env.reduce.run.run fr = (.error .stackUnderflow, fr) := by
  simp [reduce, hp, hn]
  rfl

theorem reduce_run {env : Env ι} {fr : Frontier ι} {top : Pending ι}
    {below : List (Pending ι)} (hp : env.pending = top :: below)
    (hn : top.entry.arity ≤ env.operands.length) :
    env.reduce.run.run fr = (.ok { env with
      operands := .node top.entry.operator.id (env.operands.take top.entry.arity).reverse ::
        env.operands.drop top.entry.arity
      pending := below }, { fr with stats.reductions := fr.stats.reductions + 1 }) := by
  simp [reduce, hp, Nat.not_lt.mpr hn]
  rfl

theorem pending_of_reduce {env env' : Env ι} {fr fr' : Frontier ι}
    (h : env.reduce.run.run fr = (.ok env', fr')) : env'.pending = env.pending.tail := by
  cases hp : env.pending with
  | nil => rw [reduce_run_nil hp] at h; cases h
  | cons top below =>
    by_cases hn : env.operands.length < top.entry.arity
    · rw [reduce_run_short hp hn] at h
      cases h
    · rw [reduce_run hp (Nat.le_of_not_lt hn)] at h
      cases h
      rfl

end Env

namespace Shared

open Stack

variable {ι : Type}

section Build

variable {nodes : Array (Node ι)}

theorem mapM_eq_some_iff {α β : Type} {f : α → Option β} :
    ∀ {xs : List α} {ys : List β}, xs.mapM f = some ys ↔ List.Forall₂ (fun x y => f x = some y) xs ys
  | [], ys => by cases ys <;> simp
  | x :: xs, ys => by
    cases ys with
    | nil =>
      simp only [List.mapM_cons, List.forall₂_nil_right_iff, reduceCtorEq, iff_false]
      cases f x <;> cases xs.mapM f <;> simp
    | cons y ys =>
      rw [List.forall₂_cons, ← mapM_eq_some_iff]
      simp only [List.mapM_cons]
      cases f x <;> cases xs.mapM f <;> simp

theorem exists_mapM_eq_some {α β : Type} {f : α → Option β} :
    ∀ {xs : List α}, (∀ x ∈ xs, ∃ y, f x = some y) → ∃ ys, xs.mapM f = some ys
  | [], _ => ⟨[], rfl⟩
  | x :: xs, h => by
    obtain ⟨y, hy⟩ := h x List.mem_cons_self
    obtain ⟨ys, hys⟩ := exists_mapM_eq_some fun x hx => h x (List.mem_cons_of_mem _ hx)
    exact ⟨y :: ys, by simp [List.mapM_cons, hy, hys]⟩

theorem buildTo_lt : ∀ {d i : Nat} {t : Tree ι}, buildTo nodes d i = some t → i < nodes.size
  | 0, _, _, h => by cases h
  | d + 1, i, t, h => by
    rw [buildTo] at h
    cases hi : nodes[i]? with
    | none => rw [hi] at h; cases h
    | some n => exact (Array.getElem?_eq_some_iff.mp hi).1

theorem buildTo_succ_of {nodes' : Array (Node ι)} {d d' i : Nat} {t : Tree ι}
    (hi : nodes'[i]? = nodes[i]?)
    (hargs : ∀ j u, buildTo nodes d j = some u → buildTo nodes' d' j = some u)
    (h : buildTo nodes (d + 1) i = some t) : buildTo nodes' (d' + 1) i = some t := by
  rw [buildTo] at h ⊢
  rw [hi]
  cases hn : nodes[i]? with
  | none => rw [hn] at h; cases h
  | some n =>
    rw [hn] at h
    cases n with
    | literal lit => exact h
    | oper id args =>
      simp only at h ⊢
      obtain ⟨ts, hts, rfl⟩ := Option.map_eq_some_iff.mp h
      rw [mapM_eq_some_iff] at hts
      rw [mapM_eq_some_iff.mpr (hts.imp fun _ _ hj => hargs _ _ hj)]
      rfl

theorem buildTo_mono : ∀ {d d' i : Nat} {t : Tree ι}, buildTo nodes d i = some t → d ≤ d' →
    buildTo nodes d' i = some t
  | 0, _, _, _, h, _ => by cases h
  | d + 1, d' + 1, _, _, h, hd =>
    buildTo_succ_of rfl (fun _ _ hj => buildTo_mono hj (by omega)) h
  | d + 1, 0, _, _, _, hd => by omega

theorem buildTo_append (more : Array (Node ι)) : ∀ {d i : Nat} {t : Tree ι},
    buildTo nodes d i = some t → buildTo (nodes ++ more) d i = some t
  | 0, _, _, h => by cases h
  | _ + 1, _, _, h =>
    buildTo_succ_of (Array.getElem?_append_left (buildTo_lt h))
      (fun _ _ hj => buildTo_append more hj) h

theorem build_lt {i : Nat} {t : Tree ι} (h : build nodes i = some t) : i < nodes.size :=
  buildTo_lt h

theorem build_append (more : Array (Node ι)) {i : Nat} {t : Tree ι} (h : build nodes i = some t) :
    build (nodes ++ more) i = some t :=
  buildTo_append more h

theorem build_push (n : Node ι) {i : Nat} {t : Tree ι} (h : build nodes i = some t) :
    build (nodes.push n) i = some t := by
  rw [Array.push_eq_append]
  exact build_append _ h

theorem build_push_literal (lit : Literal) : build (nodes.push (.literal lit)) nodes.size =
    some (.leaf lit) := by
  simp [build, buildTo]

def ArgsBelow (nodes : Array (Node ι)) : Prop :=
  ∀ k id args, nodes[k]? = some (Node.oper id args) → ∀ j ∈ args, j < k

theorem ArgsBelow.push (hn : ArgsBelow nodes) {n : Node ι}
    (h : ∀ id args, n = .oper id args → ∀ j ∈ args, j < nodes.size) : ArgsBelow (nodes.push n) := by
  intro k id args hk j hj
  rw [Array.getElem?_push] at hk
  split at hk
  · rename_i hsize
    exact hsize ▸ h id args (Option.some.inj hk) j hj
  · exact hn k id args hk j hj

theorem ArgsBelow.exists_buildTo (hn : ArgsBelow nodes) :
    ∀ (d i : Nat), i < nodes.size → i < d → ∃ t, buildTo nodes d i = some t
  | 0, _, _, hd => absurd hd (Nat.not_lt_zero _)
  | d + 1, i, hi, hd => by
    rw [Shared.buildTo, Array.getElem?_eq_getElem hi]
    cases hk : nodes[i] with
    | literal lit => exact ⟨.leaf lit, rfl⟩
    | oper id args =>
      have hargs := hn i id args (by rw [Array.getElem?_eq_getElem hi, hk])
      obtain ⟨ts, hts⟩ := exists_mapM_eq_some fun j hj =>
        hn.exists_buildTo d j (by have := hargs j hj; omega) (by have := hargs j hj; omega)
      exact ⟨.node id ts, by simp only [hts]; rfl⟩

theorem ArgsBelow.exists_build (hn : ArgsBelow nodes) {i : Nat} (hi : i < nodes.size) :
    ∃ t, build nodes i = some t :=
  hn.exists_buildTo (i + 1) i hi (Nat.lt_succ_self i)

theorem build_push_oper (id : ι) {args : List Nat} {ts : List (Tree ι)}
    (hargs : List.Forall₂ (fun j t => build nodes j = some t) args ts) :
    build (nodes.push (.oper id args)) nodes.size = some (.node id ts) := by
  unfold build
  rw [buildTo, Array.getElem?_push_size]
  simp only
  have : args.mapM (buildTo (nodes.push (.oper id args)) nodes.size) = some ts := by
    refine mapM_eq_some_iff.mpr (hargs.imp fun j t hj => ?_)
    rw [Array.push_eq_append]
    exact buildTo_mono (buildTo_append _ hj) (build_lt hj)
  rw [this]
  rfl

end Build

/-- Every stack of the store links to older nodes, and every operator node to older arguments. -/
structure Store.Sound (s : Store ι) : Prop where
  exprs : s.exprs.Descending
  pending : s.pending.Descending
  nodes : ArgsBelow s.nodes

/-- `s'` is `s` with nodes appended to its arenas. -/
structure Store.Extends (s s' : Store ι) : Prop where
  nodes : ∃ more, s'.nodes = s.nodes ++ more
  exprs : s.exprs.Grows s'.exprs
  pending : s.pending.Grows s'.pending

theorem Store.Extends.refl (s : Store ι) : s.Extends s :=
  ⟨⟨#[], by simp⟩, Arena.Grows.refl _, Arena.Grows.refl _⟩

theorem Store.Extends.trans {s₁ s₂ s₃ : Store ι} (h₁ : s₁.Extends s₂) (h₂ : s₂.Extends s₃) :
    s₁.Extends s₃ := by
  obtain ⟨⟨m₁, hm₁⟩, he₁, hp₁⟩ := h₁
  obtain ⟨⟨m₂, hm₂⟩, he₂, hp₂⟩ := h₂
  exact ⟨⟨m₁ ++ m₂, by rw [hm₂, hm₁, Array.append_assoc]⟩, he₁.trans he₂, hp₁.trans hp₂⟩

/-- A shared environment stands for a list environment in a store: the same cursor and mode, its
pending stack viewed as the list, and its operand stack viewed as indices of nodes that build to
the operands. -/
structure Represents (s : Store ι) (E : Env) (env : Mixfix.Env ι) : Prop where
  cursor : E.cursor = env.cursor
  mode : E.mode = env.mode
  pendingHolds : s.pending.Holds E.pending
  pending : s.pending.toList E.pending = env.pending
  exprsHolds : s.exprs.Holds E.exprs
  operands : List.Forall₂ (fun i t => build s.nodes i = some t) (s.exprs.toList E.exprs)
    env.operands

def BranchRepresents (s : Store ι) (b : Branch ι) (b' : Mixfix.Branch ι) : Prop :=
  b.entry = b'.entry ∧ Represents s b.env b'.env

/-- A store stands for a frontier: it is sound, counts as the frontier does, and its alternatives
stand for the frontier's. -/
structure Store.Matches (s : Store ι) (fr : Frontier ι) : Prop where
  sound : s.Sound
  stats : s.stats = fr.stats
  branches : List.Forall₂ (BranchRepresents s) s.branches fr.branches

theorem Represents.mono {s s' : Store ι} {E : Env} {env : Mixfix.Env ι} (hs : s.Sound)
    (he : s.Extends s') (h : Represents s E env) : Represents s' E env := by
  obtain ⟨⟨more, hm⟩, hx, hp⟩ := he
  refine ⟨h.cursor, h.mode, hp.holds hs.pending h.pendingHolds, ?_, hx.holds hs.exprs h.exprsHolds,
    ?_⟩
  · rw [hp.toList hs.pending h.pendingHolds, h.pending]
  · rw [hx.toList hs.exprs h.exprsHolds, hm]
    exact h.operands.imp fun _ _ hb => build_append more hb

theorem BranchRepresents.mono {s s' : Store ι} {b : Branch ι} {b' : Mixfix.Branch ι}
    (hs : s.Sound) (he : s.Extends s') (h : BranchRepresents s b b') : BranchRepresents s' b b' :=
  ⟨h.1, h.2.mono hs he⟩

theorem Store.Matches.mono_branches {s s' : Store ι} {fr : Frontier ι} (hm : s.Matches fr)
    (he : s.Extends s') : List.Forall₂ (BranchRepresents s') s.branches fr.branches :=
  hm.branches.imp fun _ _ hb => hb.mono hm.sound he

theorem Store.Matches.withBranches {s : Store ι} {fr : Frontier ι} (hm : s.Matches fr)
    (f : Stats → Stats) {bs : List (Branch ι)} {bs' : List (Mixfix.Branch ι)}
    (hb : List.Forall₂ (BranchRepresents s) bs bs') :
    ({ s with branches := bs, stats := f s.stats } : Store ι).Matches
      { fr with branches := bs', stats := f fr.stats } := by
  have he : s.Extends { s with branches := bs, stats := f s.stats } :=
    ⟨⟨#[], by simp⟩, .refl _, .refl _⟩
  exact ⟨⟨hm.sound.exprs, hm.sound.pending, hm.sound.nodes⟩, by rw [hm.stats],
    hb.imp fun _ _ h => h.mono hm.sound he⟩

theorem Represents.operand_lt {s : Store ι} {E : Env} {env : Mixfix.Env ι} (h : Represents s E env) :
    ∀ j ∈ s.exprs.toList E.exprs, j < s.nodes.size := by
  have key : ∀ {l : List Nat} {ts : List (Tree ι)},
      List.Forall₂ (fun i t => build s.nodes i = some t) l ts → ∀ j ∈ l, j < s.nodes.size := by
    intro l ts hl
    induction hl with
    | nil => simp
    | cons hb _ ih =>
      intro j hj
      rcases List.mem_cons.mp hj with rfl | hj
      · exact build_lt hb
      · exact ih j hj
  exact key h.operands

theorem Represents.pending_length {s : Store ι} {E : Env} {env : Mixfix.Env ι}
    (h : Represents s E env) : E.pending.length = env.pending.length := by
  rw [← h.pending, h.pendingHolds.2]

theorem Represents.exprs_length {s : Store ι} {E : Env} {env : Mixfix.Env ι}
    (h : Represents s E env) : E.exprs.length = env.operands.length := by
  rw [← h.exprsHolds.2, h.operands.length_eq]

theorem Represents.bumpCursor {s : Store ι} {E : Env} {env : Mixfix.Env ι}
    (h : Represents s E env) :
    Represents s { E with cursor := E.cursor + 1 } { env with cursor := env.cursor + 1 } :=
  ⟨by rw [h.cursor], h.mode, h.pendingHolds, h.pending, h.exprsHolds, h.operands⟩

theorem Represents.setMode {s : Store ι} {E : Env} {env : Mixfix.Env ι} (h : Represents s E env)
    (m : Mode) : Represents s { E with mode := m } { env with mode := m } :=
  ⟨h.cursor, rfl, h.pendingHolds, h.pending, h.exprsHolds, h.operands⟩

theorem Represents.pop_of_nil {s : Store ι} {E : Env} {env : Mixfix.Env ι} (hs : s.Sound)
    (hE : Represents s E env) (hp : env.pending = []) : s.pending.pop E.pending = none :=
  (Arena.pop_eq_none_iff hs.pending hE.pendingHolds).mpr (hE.pending.trans hp)

theorem Represents.pop_of_cons {s : Store ι} {E : Env} {env : Mixfix.Env ι} {top : Pending ι}
    {below : List (Pending ι)} (hs : s.Sound) (hE : Represents s E env)
    (hp : env.pending = top :: below) :
    ∃ P, s.pending.pop E.pending = some (P, top) ∧ s.pending.Holds P ∧ s.pending.toList P = below :=
  Arena.exists_pop hs.pending hE.pendingHolds (hE.pending.trans hp)

/-- Results that agree: related values, or the same broken invariant. -/
def Agree {α β : Type} (R : β → α → Prop) : Except Fault β → Except Fault α → Prop
  | .ok b, .ok a => R b a
  | .error f, .error f' => f = f'
  | _, _ => False

/-- From a store that stands for the frontier, `m'` only appends to the store, ends in a store that
stands for the frontier `m` ends in, and gives a result that agrees with that of `m` in it. -/
def Refines {α β : Type} (R : Store ι → β → α → Prop) (s : Store ι) (fr : Frontier ι)
    (m' : SearchM ι β) (m : Mixfix.SearchM ι α) : Prop :=
  s.Extends (m'.run.run s).2 ∧ (m'.run.run s).2.Matches (m.run.run fr).2 ∧
    Agree (R (m'.run.run s).2) (m'.run.run s).1 (m.run.run fr).1

section Refines

variable {α β γ δ : Type} {R : Store ι → β → α → Prop} {Q : Store ι → δ → γ → Prop}
  {s : Store ι} {fr : Frontier ι} {m' : SearchM ι β} {m : Mixfix.SearchM ι α}

theorem Refines.pure {b : β} {a : α} (hm : s.Matches fr) (h : R s b a) :
    Refines R s fr (Pure.pure b) (Pure.pure a) :=
  ⟨.refl s, hm, h⟩

theorem Refines.throw (hm : s.Matches fr) (f : Fault) :
    Refines R s fr (throw f : SearchM ι β) (throw f : Mixfix.SearchM ι α) :=
  ⟨.refl s, hm, rfl⟩

theorem Refines.bind {f' : β → SearchM ι δ} {f : α → Mixfix.SearchM ι γ} (h : Refines R s fr m' m)
    (hf : ∀ s₁ fr₁ b a, s.Extends s₁ → s₁.Matches fr₁ → R s₁ b a → m.run.run fr = (.ok a, fr₁) →
      Refines Q s₁ fr₁ (f' b) (f a)) :
    Refines Q s fr (m' >>= f') (m >>= f) := by
  obtain ⟨he, hm, ha⟩ := h
  generalize h' : m'.run.run s = p' at he hm ha
  generalize h : m.run.run fr = p at hm ha
  obtain ⟨r', s₁⟩ := p'
  obtain ⟨r, fr₁⟩ := p
  cases r' with
  | error e' =>
    cases r with
    | error e =>
      unfold Refines
      rw [run_bind_error h', run_bind_error h]
      exact ⟨he, hm, ha⟩
    | ok a => cases ha
  | ok b =>
    cases r with
    | error e => cases ha
    | ok a =>
      obtain ⟨he₁, hm₁, ha₁⟩ := hf s₁ fr₁ b a he hm ha h
      unfold Refines
      rw [run_bind_ok h', run_bind_ok h]
      exact ⟨he.trans he₁, hm₁, ha₁⟩

theorem Refines.map {f' : β → δ} {f : α → γ} (h : Refines R s fr m' m)
    (hf : ∀ s₁ b a, R s₁ b a → Q s₁ (f' b) (f a)) : Refines Q s fr (f' <$> m') (f <$> m) := by
  rw [← bind_pure_comp, ← bind_pure_comp]
  exact h.bind fun s₁ _ b a _ hm₁ hr _ => Refines.pure hm₁ (hf s₁ b a hr)

theorem Refines.of_run_left {n' : SearchM ι β} (he : m'.run.run s = n'.run.run s)
    (h : Refines R s fr n' m) : Refines R s fr m' m := by
  unfold Refines
  rw [he]
  exact h

theorem Refines.of_run_right {n : Mixfix.SearchM ι α} (he : m.run.run fr = n.run.run fr)
    (h : Refines R s fr m' n) : Refines R s fr m' m := by
  unfold Refines
  rw [he]
  exact h

theorem Refines.after {s' : Store ι} {fr' : Frontier ι} {n' : SearchM ι β} {n : Mixfix.SearchM ι α}
    (he : s.Extends s') (h' : m'.run.run s = n'.run.run s') (h : m.run.run fr = n.run.run fr')
    (hr : Refines R s' fr' n' n) : Refines R s fr m' m := by
  obtain ⟨he', hm, ha⟩ := hr
  unfold Refines
  rw [h', h]
  exact ⟨he.trans he', hm, ha⟩

theorem Refines.get {f' : Store ι → SearchM ι β} {f : Frontier ι → Mixfix.SearchM ι α}
    (h : Refines R s fr (f' s) (f fr)) : Refines R s fr (get >>= f') (get >>= f) :=
  h

theorem Refines.of_error (hm : s.Matches fr) (f : Fault) (h' : m'.run.run s = (.error f, s))
    (h : m.run.run fr = (.error f, fr)) : Refines R s fr m' m := by
  unfold Refines
  rw [h', h]
  exact ⟨.refl s, hm, rfl⟩

theorem Refines.of_ok {s' : Store ι} {fr' : Frontier ι} {b : β} {a : α} (he : s.Extends s')
    (hm : s'.Matches fr') (h' : m'.run.run s = (.ok b, s')) (h : m.run.run fr = (.ok a, fr'))
    (hr : R s' b a) : Refines R s fr m' m := by
  unfold Refines
  rw [h', h]
  exact ⟨he, hm, hr⟩

end Refines

section PopArgs

variable {a : Arena Nat}

theorem popArgs_of_le (ha : a.Descending) : ∀ (n : Nat) (acc : List Nat) {h : Handle} {vs : List Nat},
    a.Holds h → a.toList h = vs → n ≤ vs.length →
      ∃ g, popArgs a n h acc = some (g, (vs.take n).reverse ++ acc) ∧ a.Holds g ∧
        a.toList g = vs.drop n
  | 0, _, h, _, hh, hv, _ => ⟨h, by simp [popArgs], hh, by simp [hv]⟩
  | n + 1, _, _, [], _, _, hn => by simp at hn
  | n + 1, acc, _, v :: vs, hh, hv, hn => by
    obtain ⟨g₁, hp, hg₁, hl₁⟩ := Arena.exists_pop ha hh hv
    obtain ⟨g, hg, hgh, hgl⟩ := popArgs_of_le ha n (v :: acc) hg₁ hl₁ (by simp at hn; omega)
    refine ⟨g, ?_, hgh, by simpa using hgl⟩
    simp [popArgs, hp, hg]

theorem popArgs_of_lt (ha : a.Descending) : ∀ (n : Nat) (acc : List Nat) {h : Handle} {vs : List Nat},
    a.Holds h → a.toList h = vs → vs.length < n → popArgs a n h acc = none
  | 0, _, _, _, _, _, hn => absurd hn (Nat.not_lt_zero _)
  | n + 1, _, _, [], hh, hv, _ => by
    have hp := (Arena.pop_eq_none_iff ha hh).mpr hv
    simp [popArgs, hp]
  | n + 1, acc, _, v :: vs, hh, hv, hn => by
    obtain ⟨g₁, hp, hg₁, hl₁⟩ := Arena.exists_pop ha hh hv
    have := popArgs_of_lt ha n (v :: acc) hg₁ hl₁ (by simp at hn; omega)
    simp [popArgs, hp, this]

end PopArgs

theorem Env.reduce_run {s : Store ι} {E : Env} {P X : Handle} {top : Pending ι} {args : List Nat}
    (hpop : s.pending.pop E.pending = some (P, top))
    (hargs : popArgs s.exprs top.entry.arity E.exprs [] = some (X, args)) :
    E.reduce.run.run s = (.ok { E with exprs := (s.exprs.push X s.nodes.size).2, pending := P },
      { s with
        nodes := s.nodes.push (.oper top.entry.operator.id args)
        exprs := (s.exprs.push X s.nodes.size).1
        stats.reductions := s.stats.reductions + 1 }) := by
  simp only [Env.reduce, run_get_bind, hpop, hargs]
  rfl

section Reduce

variable {s : Store ι} {fr : Frontier ι} {E : Env} {env : Mixfix.Env ι}

theorem reduce_matches (hm : s.Matches fr) {X : Handle} (hX : s.exprs.Holds X) {args : List Nat}
    (hargs : ∀ j ∈ args, j < s.nodes.size) (id : ι) :
    let s' : Store ι := { s with
      nodes := s.nodes.push (.oper id args)
      exprs := (s.exprs.push X s.nodes.size).1
      stats.reductions := s.stats.reductions + 1 }
    s.Extends s' ∧ s'.Matches { fr with stats.reductions := fr.stats.reductions + 1 } := by
  intro s'
  have he : s.Extends s' :=
    ⟨⟨#[.oper id args], Array.push_eq_append⟩, Arena.grows_push _ _ _, .refl _⟩
  refine ⟨he, ⟨⟨hm.sound.exprs.push hX _, hm.sound.pending, ?_⟩, ?_, hm.mono_branches he⟩⟩
  · exact hm.sound.nodes.push fun _ _ h => by cases h; exact hargs
  · show { s.stats with reductions := s.stats.reductions + 1 } =
      { fr.stats with reductions := fr.stats.reductions + 1 }
    rw [hm.stats]

theorem reduce_refines (hm : s.Matches fr) (hE : Represents s E env) :
    Refines Represents s fr E.reduce env.reduce := by
  cases hp : env.pending with
  | nil =>
    have hpop := hE.pop_of_nil hm.sound hp
    refine Refines.of_error hm .stackUnderflow ?_ (Mixfix.Env.reduce_run_nil hp)
    simp only [Env.reduce, run_get_bind, hpop]
    rfl
  | cons top below =>
    obtain ⟨P, hpop, hPh, hPl⟩ := hE.pop_of_cons hm.sound hp
    have hlen := hE.operands.length_eq
    by_cases hn : env.operands.length < top.entry.arity
    · have hargs : popArgs s.exprs top.entry.arity E.exprs [] = none :=
        popArgs_of_lt hm.sound.exprs _ _ hE.exprsHolds rfl (by omega)
      refine Refines.of_error hm .stackUnderflow ?_ (Mixfix.Env.reduce_run_short hp hn)
      simp only [Env.reduce, run_get_bind, hpop, hargs]
      rfl
    · obtain ⟨X, hargs, hXh, hXl⟩ :=
        popArgs_of_le hm.sound.exprs top.entry.arity [] hE.exprsHolds rfl (by omega)
      rw [List.append_nil] at hargs
      have hlt : ∀ j ∈ ((s.exprs.toList E.exprs).take top.entry.arity).reverse, j < s.nodes.size :=
        fun j hj => hE.operand_lt j (List.mem_of_mem_take (List.mem_reverse.mp hj))
      obtain ⟨he, hm'⟩ := reduce_matches hm hXh hlt top.entry.operator.id
      unfold Refines
      rw [Env.reduce_run hpop hargs, Mixfix.Env.reduce_run hp (Nat.le_of_not_lt hn)]
      refine ⟨he, hm', hE.cursor, hE.mode, hPh, hPl, Arena.Holds.push_new hm.sound.exprs hXh _, ?_⟩
      rw [Arena.toList_push_new hm.sound.exprs hXh, hXl]
      exact List.Forall₂.cons
        (build_push_oper _ (List.forall₂_reverse_iff.mpr (List.forall₂_take _ hE.operands)))
        ((List.forall₂_drop _ hE.operands).imp fun _ _ => build_push _)

theorem reduceTimes_refines : ∀ (n : Nat) {s : Store ι} {fr : Frontier ι} {E : Env}
    {env : Mixfix.Env ι}, s.Matches fr → Represents s E env →
      Refines Represents s fr (E.reduceTimes n) (env.reduceTimes n)
  | 0, _, _, _, _, hm, hE => Refines.pure hm hE
  | n + 1, _, _, _, _, hm, hE => by
    rw [Env.reduceTimes, Mixfix.Env.reduceTimes]
    exact (reduce_refines hm hE).bind fun _ _ _ _ _ hm₁ hE₁ _ => reduceTimes_refines n hm₁ hE₁

theorem unwindFor_refines (priority : Nat) : ∀ (n : Nat) {s : Store ι} {fr : Frontier ι} {E : Env}
    {env : Mixfix.Env ι}, s.Matches fr → Represents s E env → env.pending.length ≤ n →
      Refines Represents s fr (Env.unwindFor priority n E)
        (env.reduceTimes (env.pending.takeWhile (Pending.closesBefore priority)).length)
  | 0, _, _, _, env, hm, hE, hn => by
    rw [List.length_eq_zero_iff.mp (Nat.le_zero.mp hn)]
    exact Refines.pure hm hE
  | n + 1, s, fr, E, env, hm, hE, hn => by
    have hpeek := Arena.peek_eq_head hm.sound.pending E.pending
    rw [hE.pending] at hpeek
    cases hp : env.pending with
    | nil =>
      rw [hp] at hpeek
      have h' : (Env.unwindFor priority (n + 1) E).run.run s = (pure E : SearchM ι Env).run.run s := by
        simp only [Env.unwindFor, run_get_bind, hpeek, List.head?_nil]
      exact Refines.of_run_left h' (Refines.pure hm hE)
    | cons top below =>
      rw [hp] at hpeek
      by_cases hc : top.closesBefore priority
      · have h' : (Env.unwindFor priority (n + 1) E).run.run s =
            (E.reduce >>= Env.unwindFor priority n).run.run s := by
          simp only [Env.unwindFor, run_get_bind, hpeek, List.head?_cons, hc, if_true]
        refine Refines.of_run_left h' ?_
        rw [List.takeWhile_cons_of_pos hc, List.length_cons, Mixfix.Env.reduceTimes]
        refine (reduce_refines hm hE).bind fun _ _ _ env₁ _ hm₁ hE₁ hrun => ?_
        have hbelow : env₁.pending = below := by rw [Mixfix.Env.pending_of_reduce hrun, hp]; rfl
        have := unwindFor_refines priority n hm₁ hE₁ (by rw [hbelow]; simp [hp] at hn; omega)
        rwa [hbelow] at this
      · have h' : (Env.unwindFor priority (n + 1) E).run.run s = (pure E : SearchM ι Env).run.run s := by
          simp only [Env.unwindFor, run_get_bind, hpeek, List.head?_cons, hc, Bool.false_eq_true,
            ite_false]
        refine Refines.of_run_left h' ?_
        rw [List.takeWhile_cons_of_neg hc]
        exact Refines.pure hm hE

theorem unwind_refines {s : Store ι} {fr : Frontier ι} {E : Env} {env : Mixfix.Env ι}
    (hm : s.Matches fr) (hE : Represents s E env) (priority : Nat) :
    Refines Represents s fr (E.unwind priority) (env.unwind priority) :=
  unwindFor_refines priority _ hm hE hE.pending_length.ge

end Reduce

section Pending

variable {s : Store ι} {fr : Frontier ι} {E : Env} {env : Mixfix.Env ι}

theorem push_pending (hm : s.Matches fr) {g : Handle} (hg : s.pending.Holds g) (v : Pending ι) :
    let s' : Store ι := { s with pending := (s.pending.push g v).1 }
    s.Extends s' ∧ s'.Matches fr ∧
      ∀ {E : Env} {env : Mixfix.Env ι}, Represents s E env →
        Represents s' { E with pending := (s.pending.push g v).2 }
          { env with pending := v :: s.pending.toList g } := by
  intro s'
  have he : s.Extends s' := ⟨⟨#[], by simp [s']⟩, .refl _, Arena.grows_push _ _ _⟩
  refine ⟨he, ⟨⟨hm.sound.exprs, hm.sound.pending.push hg v, hm.sound.nodes⟩, hm.stats,
    hm.mono_branches he⟩, fun hE => ⟨hE.cursor, hE.mode, ?_, ?_, hE.exprsHolds, hE.operands⟩⟩
  · exact Arena.Holds.push_new hm.sound.pending hg v
  · exact Arena.toList_push_new hm.sound.pending hg v

theorem advance_refines (hm : s.Matches fr) (hE : Represents s E env) :
    Refines Represents s fr E.advance env.advance := by
  cases hp : env.pending with
  | nil =>
    have hpop := hE.pop_of_nil hm.sound hp
    refine Refines.of_error hm .stackUnderflow ?_ ?_
    · simp only [Env.advance, run_get_bind, hpop]
      rfl
    · simp [Mixfix.Env.advance, hp]
      rfl
  | cons top below =>
    obtain ⟨P, hpop, hPh, hPl⟩ := hE.pop_of_cons hm.sound hp
    by_cases hk : top.next < top.entry.restEnd
    · cases hpat : top.entry.operator.pattern[top.next]? with
      | some slot =>
        cases slot with
        | hole a =>
          obtain ⟨he, hm', hrep⟩ := push_pending hm hPh { top with next := top.next + 1 }
          have hr := (hrep hE).setMode .expectOperand
          rw [hPl] at hr
          refine Refines.of_ok he hm' ?_ ?_ hr
          · simp only [Env.advance, run_get_bind, hpop, hk, hpat, if_true]
            rfl
          · simp [Mixfix.Env.advance, hp, hk, hpat]
            rfl
        | sign x =>
          refine Refines.of_ok (.refl s) hm ?_ ?_ (hE.setMode .expectSign)
          · simp only [Env.advance, run_get_bind, hpop, hk, hpat, if_true]
            rfl
          · simp [Mixfix.Env.advance, hp, hk, hpat]
            rfl
      | none =>
        refine Refines.of_ok (.refl s) hm ?_ ?_ (hE.setMode .expectSign)
        · simp only [Env.advance, run_get_bind, hpop, hk, hpat, if_true]
          rfl
        · simp [Mixfix.Env.advance, hp, hk, hpat]
          rfl
    · cases hb : top.entry.bound with
      | some b =>
        refine Refines.of_ok (.refl s) hm ?_ ?_ (hE.setMode .expectOperand)
        · simp only [Env.advance, run_get_bind, hpop, hk, hb, if_false, Option.isSome_some,
            if_true]
          rfl
        · simp [Mixfix.Env.advance, hp, hk, hb]
          rfl
      | none =>
        have h' : E.advance.run.run s =
            (E.reduce >>= fun E => pure { E with mode := .afterOperand } : SearchM ι Env).run.run s := by
          simp only [Env.advance, run_get_bind, hpop, hk, hb, if_false, Option.isSome_none,
            Bool.false_eq_true]
        have h : env.advance.run.run fr = (env.reduce >>= fun env =>
            pure { env with mode := .afterOperand } : Mixfix.SearchM ι (Mixfix.Env ι)).run.run fr := by
          simp [Mixfix.Env.advance, hp, hk, hb]
        refine Refines.of_run_left h' (Refines.of_run_right h ?_)
        exact (reduce_refines hm hE).bind fun _ _ _ _ _ hm₁ hE₁ _ => Refines.pure hm₁ (hE₁.setMode _)

theorem consume_refines (hm : s.Matches fr) (hE : Represents s E env) :
    Refines Represents s fr E.consume env.consume := by
  cases hp : env.pending with
  | nil =>
    have hpop := hE.pop_of_nil hm.sound hp
    refine Refines.of_error hm .stackUnderflow ?_ ?_
    · simp only [Env.consume, run_get_bind, hpop]
      rfl
    · simp [Mixfix.Env.consume, hp]
      rfl
  | cons top below =>
    obtain ⟨P, hpop, hPh, hPl⟩ := hE.pop_of_cons hm.sound hp
    obtain ⟨he, hm', hrep⟩ := push_pending hm hPh { top with next := top.next + 1 }
    have hr := (hrep hE).bumpCursor
    rw [hPl] at hr
    refine Refines.after he ?_ ?_ (advance_refines hm' hr)
    · simp only [Env.consume, run_get_bind, hpop]
      rfl
    · simp only [Mixfix.Env.consume, hp]

theorem enter_refines (hm : s.Matches fr) (hE : Represents s E env) (e : Entry ι) :
    Refines Represents s fr (E.enter e) (env.enter e) := by
  unfold Env.enter Mixfix.Env.enter
  dsimp only
  rw [hE.mode]
  split
  on_goal 1 => refine (unwind_refines hm hE e.priority).bind fun s₁ fr₁ E₁ env₁ _ hm₁ hE₁ _ => ?_
  on_goal 2 => refine (Refines.pure hm hE).bind fun s₁ fr₁ E₁ env₁ _ hm₁ hE₁ _ => ?_
  all_goals
    obtain ⟨he, hm', hrep⟩ := push_pending hm₁ hE₁.pendingHolds ⟨e, e.lead + 1⟩
    have hr := (hrep hE₁).bumpCursor
    rw [hE₁.pending] at hr
    exact Refines.after he (by rw [run_get_bind]; rfl) rfl (advance_refines hm' hr)

theorem fork_refines (hm : s.Matches fr) (hE : Represents s E env) (group : List (Entry ι)) :
    Refines Represents s fr (E.fork group) (env.fork group) := by
  cases group with
  | nil => exact Refines.throw hm _
  | cons first rest =>
    let s₁ : Store ι := { s with
      branches := rest.map (⟨E, ·⟩) ++ s.branches
      stats.forks := s.stats.forks + rest.length }
    let fr₁ : Frontier ι := { fr with
      branches := rest.map (⟨env, ·⟩) ++ fr.branches
      stats.forks := fr.stats.forks + rest.length }
    have he : s.Extends s₁ := ⟨⟨#[], by simp [s₁]⟩, .refl _, .refl _⟩
    have hE₁ : Represents s₁ E env := hE.mono hm.sound he
    have hm₁ : s₁.Matches fr₁ := by
      refine hm.withBranches (fun st => { st with forks := st.forks + rest.length })
        (List.rel_append ?_ hm.branches)
      rw [List.forall₂_map_left_iff, List.forall₂_map_right_iff]
      exact List.forall₂_same.mpr fun _ _ => ⟨rfl, hE⟩
    exact Refines.after he rfl rfl (enter_refines hm₁ hE₁ first)

end Pending

/-- Steps that agree: lines that stand for each other, a root node that builds to the accepted
tree, or the same failure. -/
def StepRepresents (s : Store ι) : Step ι → Mixfix.Step ι → Prop
  | .next E, .next env => Represents s E env
  | .accept root, .accept tree => build s.nodes root = some tree
  | .fail f, .fail f' => f = f'
  | _, _ => False

section Steps

variable {s : Store ι} {fr : Frontier ι} {E : Env} {env : Mixfix.Env ι}

theorem required_refines (hm : s.Matches fr) (hE : Represents s E env) :
    Refines (fun _ x y => x = y) s fr E.required env.required := by
  have hpeek : s.pending.peek E.pending = env.pending.head? := by
    rw [Arena.peek_eq_head hm.sound.pending, hE.pending]
  cases hr : env.pending.head? >>= Pending.slotSign with
  | some x =>
    refine Refines.of_ok (.refl s) hm ?_ ?_ (rfl : x = x)
    · simp only [Env.required, run_get_bind, hpeek, hr]
      rfl
    · simp only [Mixfix.Env.required, hr]
      rfl
  | none =>
    refine Refines.of_error hm .stackUnderflow ?_ ?_
    · simp only [Env.required, run_get_bind, hpeek, hr]
      rfl
    · simp only [Mixfix.Env.required, hr]
      rfl

theorem Env.obligation_run (hE : Represents s E env) :
    E.obligation.run.run s = (.ok (Mixfix.obligation env.pending), s) := by
  simp only [Env.obligation, run_get_bind, hE.pending]
  rfl

theorem pushLiteral_refines (hm : s.Matches fr) (hE : Represents s E env) (lit : Literal) :
    Refines Represents s fr (E.pushLiteral lit) (pure (env.pushLiteral lit)) := by
  let s' : Store ι := { s with
    nodes := s.nodes.push (.literal lit)
    exprs := (s.exprs.push E.exprs s.nodes.size).1 }
  have he : s.Extends s' := ⟨⟨#[.literal lit], Array.push_eq_append⟩, Arena.grows_push _ _ _, .refl _⟩
  have hm' : s'.Matches fr := by
    exact ⟨⟨hm.sound.exprs.push hE.exprsHolds _, hm.sound.pending,
      hm.sound.nodes.push fun _ _ h => nomatch h⟩, hm.stats, hm.mono_branches he⟩
  have hr : Represents s' { E with
      cursor := E.cursor + 1
      exprs := (s.exprs.push E.exprs s.nodes.size).2
      mode := .afterOperand } (env.pushLiteral lit) := by
    refine ⟨by simp [hE.cursor, Mixfix.Env.pushLiteral], rfl, hE.pendingHolds, hE.pending,
      Arena.Holds.push_new hm.sound.exprs hE.exprsHolds _, ?_⟩
    show List.Forall₂ _ (s'.exprs.toList (s.exprs.push E.exprs s.nodes.size).2)
      (.leaf lit :: env.operands)
    rw [Arena.toList_push_new hm.sound.exprs hE.exprsHolds]
    exact List.Forall₂.cons (build_push_literal lit) (hE.operands.imp fun _ _ => build_push _)
  exact Refines.of_ok he hm' (by simp only [Env.pushLiteral, run_get_bind]; rfl) rfl hr

theorem finish_refines (hm : s.Matches fr) (hE : Represents s E env) :
    Refines StepRepresents s fr E.finish env.finish := by
  unfold Env.finish Mixfix.Env.finish
  rw [hE.mode]
  cases hmo : env.mode with
  | expectOperand => exact Refines.pure hm rfl
  | expectSign =>
    exact (required_refines hm hE).bind fun _ _ _ _ _ hm₁ hxy _ => hxy ▸ Refines.pure hm₁ rfl
  | afterOperand =>
    dsimp only
    refine Refines.after (.refl s) (run_bind_ok (Env.obligation_run hE)) rfl ?_
    cases hob : Mixfix.obligation env.pending with
    | some p => exact Refines.pure hm rfl
    | none =>
      dsimp only
      rw [hE.pending_length]
      refine (reduceTimes_refines _ hm hE).bind fun s₁ fr₁ E₁ env₁ _ hm₁ hE₁ _ => ?_
      have hpeek := Arena.peek_eq_head hm₁.sound.exprs E₁.exprs
      have hlen := hE₁.exprs_length
      have hops := hE₁.operands
      cases henv : env₁.operands with
      | nil =>
        rw [henv, List.forall₂_nil_right_iff] at hops
        refine Refines.of_error hm₁ (.danglingExpressions 0) ?_ rfl
        rw [run_get_bind]
        simp only [hpeek, hops, List.head?_nil, hlen, henv, List.length_nil]
        rfl
      | cons t rest =>
        rw [henv] at hops
        obtain ⟨i, is, hi, his, hvs⟩ := List.forall₂_cons_right_iff.mp hops
        cases rest with
        | nil =>
          rw [List.forall₂_nil_right_iff] at his
          refine Refines.of_ok (.refl s₁) hm₁ ?_ rfl (show StepRepresents s₁ (.accept i) (.accept t) from hi)
          rw [run_get_bind]
          simp only [hpeek, hvs, his, List.head?_cons, hlen, henv, List.length_singleton,
            beq_self_eq_true, if_true]
          rfl
        | cons t' rest' =>
          refine Refines.of_error hm₁ (.danglingExpressions (t :: t' :: rest').length) ?_ rfl
          have hne : ((t :: t' :: rest').length == 1) = false := by simp
          rw [run_get_bind]
          simp only [hpeek, hvs, List.head?_cons, hlen, henv, hne, Bool.false_eq_true, if_false]
          rfl

theorem Refines.next {m' : SearchM ι Env} {m : Mixfix.SearchM ι (Mixfix.Env ι)}
    (h : Refines Represents s fr m' m) :
    Refines StepRepresents s fr (Step.next <$> m') (Mixfix.Step.next <$> m) :=
  h.map fun _ _ _ h => h

theorem openWith_refines (hm : s.Matches fr) (hE : Represents s E env) (g : Groups ι)
    (sign : String) : Refines StepRepresents s fr (Env.openWith g E sign) (Mixfix.Env.openWith g env sign) := by
  unfold Env.openWith Mixfix.Env.openWith
  cases g.opening? sign with
  | some group => exact (fork_refines hm hE group).next
  | none =>
    refine Refines.after (.refl s) (run_bind_ok (Env.obligation_run hE)) rfl ?_
    dsimp only
    split <;> exact Refines.pure hm rfl

theorem continueWithOperators_refines (hm : s.Matches fr) (hE : Represents s E env) (g : Groups ι)
    (sign : String) :
    Refines StepRepresents s fr (Env.continueWithOperators g E sign)
      (Mixfix.Env.continueWithOperators g env sign) := by
  unfold Env.continueWithOperators Mixfix.Env.continueWithOperators
  cases g.continuing? sign with
  | some group => exact (fork_refines hm hE group).next
  | none =>
    dsimp only
    split <;> exact Refines.pure hm rfl

theorem continueWith_refines (hm : s.Matches fr) (hE : Represents s E env) (g : Groups ι)
    (sign : String) :
    Refines StepRepresents s fr (Env.continueWith g E sign) (Mixfix.Env.continueWith g env sign) := by
  unfold Env.continueWith Mixfix.Env.continueWith
  refine Refines.after (.refl s) (run_bind_ok (Env.obligation_run hE)) rfl ?_
  cases Mixfix.obligation env.pending with
  | none => exact continueWithOperators_refines hm hE g sign
  | some p =>
    obtain ⟨depth, x⟩ := p
    dsimp only
    split
    · refine (reduceTimes_refines depth hm hE).bind fun _ _ _ _ _ hm₁ hE₁ _ => ?_
      exact (consume_refines hm₁ hE₁).bind fun _ _ _ _ _ hm₂ hE₂ _ => Refines.pure hm₂ hE₂
    · exact continueWithOperators_refines hm hE g sign

theorem step_refines (hm : s.Matches fr) (hE : Represents s E env) (g : Groups ι)
    (tokens : Array Token) :
    Refines StepRepresents s fr (Env.step g tokens E) (Mixfix.Env.step g tokens env) := by
  unfold Env.step Mixfix.Env.step
  rw [hE.cursor, hE.mode]
  cases tokens[env.cursor]? with
  | none => exact finish_refines hm hE
  | some token =>
    dsimp only
    have hlit : ∀ lit : Literal, Refines StepRepresents s fr (Step.next <$> E.pushLiteral lit)
        (pure (Mixfix.Step.next (env.pushLiteral lit))) := fun lit =>
      Refines.of_run_right rfl (pushLiteral_refines hm hE lit).next
    cases env.mode <;> cases token.value
    · exact openWith_refines hm hE g _
    · exact hlit _
    · exact hlit _
    · exact continueWith_refines hm hE g _
    · exact Refines.pure hm rfl
    · exact Refines.pure hm rfl
    all_goals
      refine (required_refines hm hE).bind fun _ _ _ _ he₁ hm₁ hxy _ => ?_
      subst hxy
      dsimp only
    · split
      · exact (consume_refines hm₁ (hE.mono hm.sound he₁)).next
      · exact Refines.pure hm₁ rfl
    · exact Refines.pure hm₁ rfl
    · exact Refines.pure hm₁ rfl

end Steps

theorem Store.Matches.branches_nil {s : Store ι} {fr : Frontier ι} (hm : s.Matches fr)
    (hb : s.branches = []) : fr.branches = [] := by
  have h := hm.branches
  rwa [hb, List.forall₂_nil_left_iff] at h

theorem Store.Matches.takeUp {s : Store ι} {fr : Frontier ι} (hm : s.Matches fr) {b : Branch ι}
    {rest : List (Branch ι)} (hb : s.branches = b :: rest) :
    ∃ b' rest', fr.branches = b' :: rest' ∧ b.entry = b'.entry ∧
      let s' : Store ι := { s with
        branches := rest
        stats.backtracks := s.stats.backtracks + 1 }
      s.Extends s' ∧
        s'.Matches { fr with
          branches := rest'
          stats.backtracks := fr.stats.backtracks + 1 } ∧
        Represents s' b.env b'.env := by
  have hbs := hm.branches
  rw [hb] at hbs
  obtain ⟨b', rest', hbb, hrest, hfb⟩ := List.forall₂_cons_left_iff.mp hbs
  refine ⟨b', rest', hfb, hbb.1, ?_⟩
  intro s'
  have he : s.Extends s' := ⟨⟨#[], by simp [s']⟩, .refl _, .refl _⟩
  exact ⟨he, hm.withBranches (fun st => { st with backtracks := st.backtracks + 1 }) hrest,
    hbb.2.mono hm.sound he⟩

/-- Search results that agree: a root node that builds to the accepted tree, or the same syntax
error. -/
def Accepts (s : Store ι) : Except SyntaxError Nat → Except SyntaxError (Tree ι) → Prop
  | .ok root, .ok tree => build s.nodes root = some tree
  | .error e, .error e' => e = e'
  | _, _ => False

theorem failureAt_eq {s : Store ι} {E : Env} {env : Mixfix.Env ι} (hE : Represents s E env)
    (tokens : Array Token) (f : SyntaxFault) : failureAt tokens E f = Parser.failureAt tokens env f := by
  simp only [failureAt, Parser.failureAt, hE.cursor]

theorem search_refines (g : Groups ι) (tokens : Array Token) :
    ∀ (fuel : Nat) {s : Store ι} {fr : Frontier ι} {E : Env} {env : Mixfix.Env ι}
      (best : Option SyntaxError), s.Matches fr → Represents s E env →
        Refines Accepts s fr (search g tokens fuel E best) (Parser.search g tokens fuel env best)
  | 0, s, fr, E, env, best, hm, hE => by
    rw [search, Parser.search, failureAt_eq hE]
    exact Refines.pure hm rfl
  | fuel + 1, s, fr, E, env, best, hm, hE => by
    rw [search, Parser.search]
    refine (step_refines hm hE g tokens).bind fun s₁ fr₁ st st' _ hm₁ hst _ => ?_
    cases st <;> cases st' <;> try exact hst.elim
    case next.next => exact search_refines g tokens fuel best hm₁ hst
    case accept.accept => exact Refines.pure hm₁ hst
    case fail.fail f f' =>
      cases hst
      dsimp only
      rw [failureAt_eq hE]
      refine Refines.get ?_
      cases hb : s₁.branches with
      | nil =>
        dsimp only
        rw [hm₁.branches_nil hb]
        exact Refines.pure hm₁ rfl
      | cons b rest =>
        obtain ⟨b', rest', hfb, hentry, he₂, hm₂, hbE⟩ := hm₁.takeUp hb
        dsimp only
        rw [hfb, hentry]
        exact Refines.after he₂ rfl rfl ((enter_refines hm₂ hbE b'.entry).bind
          fun _ _ _ _ _ hm₃ hE₃ _ => search_refines g tokens fuel _ hm₃ hE₃)

theorem start_matches (n : Nat) :
    ({ stats := { tokens := n } } : Store ι).Matches { stats := { tokens := n } } :=
  ⟨⟨Arena.descending_empty, Arena.descending_empty, fun _ _ _ h => by simp at h⟩, rfl, .nil⟩

theorem start_represents (s : Store ι) : Represents s {} {} := by
  refine ⟨rfl, rfl, Arena.holds_empty _, Arena.toList_empty _ _, Arena.holds_empty _, ?_⟩
  rw [show ({} : Env).exprs = ⟨none, 0⟩ from rfl, Arena.toList_empty]
  exact .nil

end Shared

namespace Parser

variable {ι : Type}

theorem parse_eq_parseLists (p : Parser ι) (tokens : Array Token) :
    p.parse tokens = p.parseLists tokens := by
  obtain ⟨-, hm, ha⟩ := Shared.search_refines p.groups tokens (p.fuel tokens) none
    (Shared.start_matches tokens.size) (Shared.start_represents _)
  unfold parse parseLists
  dsimp only
  generalize (Shared.search p.groups tokens (p.fuel tokens) {} none).run.run
    { stats := { tokens := tokens.size } } = x at hm ha
  generalize (search p.groups tokens (p.fuel tokens) {} none).run.run
    { stats := { tokens := tokens.size } } = y at hm ha
  obtain ⟨r', st⟩ := x
  obtain ⟨r, fr⟩ := y
  dsimp only at hm ha ⊢
  rw [hm.stats]
  -- the results agree case by case; mismatched cases are refuted by `ha`
  rcases r' with f' | (e' | root) <;> rcases r with f | (e | tree) <;>
    simp only [Shared.Agree, Shared.Accepts] at ha <;> simp only [Shared.outcome, ha]

end Parser

end Mixfix
