import Mixfix.Proofs.Parse.Frames

namespace Mixfix

namespace Tree

variable {ι : Type}

mutual

def nodes : Tree ι → Nat
  | .leaf _ => 0
  | .node _ args => nodesOf args + 1

def nodesOf : List (Tree ι) → Nat
  | [] => 0
  | t :: ts => nodes t + nodesOf ts

end

theorem nodesOf_append (l l' : List (Tree ι)) : nodesOf (l ++ l') = nodesOf l + nodesOf l' := by
  induction l with
  | nil => simp [nodesOf]
  | cons t ts ih => simp [nodesOf, ih, Nat.add_assoc]

theorem nodesOf_reverse (l : List (Tree ι)) : nodesOf l.reverse = nodesOf l := by
  induction l with
  | nil => rfl
  | cons t ts ih =>
    rw [List.reverse_cons, nodesOf_append, ih]
    simp [nodesOf, Nat.add_comm]

theorem nodesOf_take_add_drop (n : Nat) (l : List (Tree ι)) :
    nodesOf (l.take n) + nodesOf (l.drop n) = nodesOf l := by
  rw [← nodesOf_append, List.take_append_drop]

end Tree

variable {ι : Type}

def Env.nodes (env : Env ι) : Nat :=
  Tree.nodesOf env.operands

/-- The operator nodes a step leads to: those of the next line or of the tree it accepts; a line
that fails keeps `n`. -/
def Step.nodes (n : Nat) : Step ι → Nat
  | .next env => env.nodes
  | .accept tree => tree.nodes
  | .fail _ => n

/-- What an operation of a line may do to the counters: the tokens and the backtracks stay, each
alternative set aside counts as a fork, and the reductions do not go down. -/
structure Frontier.Advances (fr fr' : Frontier ι) : Prop where
  tokens : fr'.stats.tokens = fr.stats.tokens
  backtracks : fr'.stats.backtracks = fr.stats.backtracks
  forks : fr'.stats.forks + fr.branches.length = fr.stats.forks + fr'.branches.length
  reductions : fr.stats.reductions ≤ fr'.stats.reductions

theorem Frontier.Advances.refl (fr : Frontier ι) : fr.Advances fr :=
  ⟨rfl, rfl, rfl, le_rfl⟩

theorem Frontier.Advances.trans {fr fr' fr'' : Frontier ι} (h : fr.Advances fr')
    (h' : fr'.Advances fr'') : fr.Advances fr'' :=
  ⟨h'.tokens.trans h.tokens, h'.backtracks.trans h.backtracks,
    by have := h.forks; have := h'.forks; omega, h.reductions.trans h'.reductions⟩

namespace SearchM

variable {α β : Type} {m : SearchM ι α} {n : Nat} {size : α → Nat}

/-- From every frontier, `m` advances the counters, and when it gives `a` it has counted as many
reductions as `size a` exceeds `n`. -/
def Tallies (m : SearchM ι α) (n : Nat) (size : α → Nat) : Prop :=
  ∀ fr : Frontier ι, fr.Advances (m.run.run fr).2 ∧
    ∀ a, (m.run.run fr).1 = .ok a →
      (m.run.run fr).2.stats.reductions + n = fr.stats.reductions + size a

theorem Tallies.pure {a : α} (h : size a = n) : Tallies (pure a : SearchM ι α) n size :=
  fun fr => ⟨.refl fr, fun _ ha => by cases ha; rw [h]; rfl⟩

theorem Tallies.throw {f : Fault} : Tallies (throw f : SearchM ι α) n size :=
  fun fr => ⟨.refl fr, fun _ ha => nomatch ha⟩

theorem Tallies.bind {f : α → SearchM ι β} {size' : β → Nat} (hm : Tallies m n size)
    (hf : ∀ a, Tallies (f a) (size a) size') : Tallies (m >>= f) n size' := by
  intro fr
  obtain ⟨hadv, hsize⟩ := hm fr
  rcases h : m.run.run fr with ⟨r, fr₁⟩
  rw [h] at hadv hsize
  cases r with
  | error e =>
    have hrun : (m >>= f).run.run fr = (.error e, fr₁) := by
      simp only [ExceptT.run_bind, StateT.run_bind, h]
      rfl
    rw [hrun]
    exact ⟨hadv, fun _ hb => nomatch hb⟩
  | ok a =>
    obtain ⟨hadv', hsize'⟩ := hf a fr₁
    have hrun : (m >>= f).run.run fr = (f a).run.run fr₁ := by
      simp only [ExceptT.run_bind, StateT.run_bind, h]
      rfl
    rw [hrun]
    refine ⟨hadv.trans hadv', fun b hb => ?_⟩
    have h₁ : fr₁.stats.reductions + n = fr.stats.reductions + size a := hsize a rfl
    have h₂ := hsize' b hb
    omega

theorem Tallies.map {f : α → β} {size' : β → Nat} (hm : Tallies m n size)
    (h : ∀ a, size' (f a) = size a) : Tallies (f <$> m) n size' := by
  intro fr
  obtain ⟨hadv, hsize⟩ := hm fr
  rcases hr : m.run.run fr with ⟨r, fr₁⟩
  rw [hr] at hadv hsize
  have hrun : (f <$> m).run.run fr = (f <$> r, fr₁) := by
    simp only [ExceptT.run_map, StateT.run_map, hr]
    cases r <;> rfl
  rw [hrun]
  refine ⟨hadv, fun b hb => ?_⟩
  cases r with
  | error e => cases hb
  | ok a =>
    cases hb
    rw [h]
    exact hsize a rfl

end SearchM

namespace Env

open SearchM

variable {env : Env ι} {g : Groups ι} {tokens : Array Token}

theorem reduce_tallies : Tallies env.reduce env.nodes nodes := by
  intro fr
  cases hp : env.pending with
  | nil =>
    have hrun : env.reduce.run.run fr = (.error .stackUnderflow, fr) := by
      unfold reduce
      rw [hp]
      rfl
    rw [hrun]
    exact ⟨.refl fr, fun _ h => nomatch h⟩
  | cons top below =>
    by_cases hn : env.operands.length < top.entry.arity
    · have hrun : env.reduce.run.run fr = (.error .stackUnderflow, fr) := by
        unfold reduce
        rw [hp]
        dsimp only
        rw [if_pos hn]
        rfl
      rw [hrun]
      exact ⟨.refl fr, fun _ h => nomatch h⟩
    · have hrun : env.reduce.run.run fr = (.ok { env with
            operands := .node top.entry.operator.id (env.operands.take top.entry.arity).reverse ::
              env.operands.drop top.entry.arity
            pending := below },
          { fr with stats := { fr.stats with reductions := fr.stats.reductions + 1 } }) := by
        unfold reduce
        rw [hp]
        dsimp only
        rw [if_neg hn]
        rfl
      rw [hrun]
      refine ⟨⟨rfl, rfl, rfl, Nat.le_succ _⟩, fun e he => ?_⟩
      cases he
      have hsplit := Tree.nodesOf_take_add_drop top.entry.arity env.operands
      simp only [nodes, Tree.nodesOf, Tree.nodes, Tree.nodesOf_reverse]
      omega

theorem reduceTimes_tallies :
    ∀ (k : Nat) (env : Env ι), Tallies (env.reduceTimes k) env.nodes nodes
  | 0, _ => Tallies.pure rfl
  | k + 1, _ => Tallies.bind reduce_tallies fun a => reduceTimes_tallies k a

theorem unwind_tallies (priority : Nat) : Tallies (env.unwind priority) env.nodes nodes :=
  reduceTimes_tallies _ env

theorem advance_tallies : Tallies env.advance env.nodes nodes := by
  unfold advance
  split
  · split
    · split
      · exact Tallies.pure rfl
      · exact Tallies.pure rfl
    · split
      · exact Tallies.pure rfl
      · exact Tallies.bind reduce_tallies fun _ => Tallies.pure rfl
  · exact Tallies.throw

theorem consume_tallies : Tallies env.consume env.nodes nodes := by
  unfold consume
  split
  · exact advance_tallies
  · exact Tallies.throw

theorem enter_tallies (e : Entry ι) : Tallies (env.enter e) env.nodes nodes := by
  unfold enter
  split
  · exact Tallies.bind (unwind_tallies _) fun _ => advance_tallies
  · exact Tallies.bind (Tallies.pure rfl) fun _ => advance_tallies

theorem fork_tallies (group : List (Entry ι)) : Tallies (env.fork group) env.nodes nodes := by
  cases group with
  | nil => exact Tallies.throw
  | cons first rest =>
    refine @Tallies.bind ι _ _ _ _ (fun _ => env.nodes) _ _ ?_ fun _ => enter_tallies first
    intro fr
    refine ⟨⟨rfl, rfl, ?_, le_rfl⟩, fun _ _ => rfl⟩
    show fr.stats.forks + rest.length + fr.branches.length =
      fr.stats.forks + (rest.map (Branch.mk env) ++ fr.branches).length
    simp only [List.length_append, List.length_map]
    omega

theorem required_tallies : Tallies env.required n fun _ => n := by
  unfold required
  split
  · exact Tallies.pure rfl
  · exact Tallies.throw

theorem finish_tallies : Tallies env.finish env.nodes (Step.nodes env.nodes) := by
  unfold finish
  split
  · exact Tallies.pure rfl
  · exact Tallies.bind required_tallies fun _ => Tallies.pure rfl
  · split
    · exact Tallies.pure rfl
    · refine Tallies.bind (reduceTimes_tallies _ env) fun a => ?_
      split
      · rename_i root hroot
        exact Tallies.pure (by simp [Step.nodes, nodes, hroot, Tree.nodesOf])
      · exact Tallies.throw

theorem openWith_tallies (sign : String) :
    Tallies (openWith g env sign) env.nodes (Step.nodes env.nodes) := by
  unfold openWith
  split
  · exact (fork_tallies _).map fun _ => rfl
  · split
    · exact Tallies.pure rfl
    · exact Tallies.pure rfl

theorem continueWithOperators_tallies (sign : String) :
    Tallies (continueWithOperators g env sign) env.nodes (Step.nodes env.nodes) := by
  unfold continueWithOperators
  split
  · exact (fork_tallies _).map fun _ => rfl
  · split
    · exact Tallies.pure rfl
    · exact Tallies.pure rfl

theorem continueWith_tallies (sign : String) :
    Tallies (continueWith g env sign) env.nodes (Step.nodes env.nodes) := by
  unfold continueWith
  split
  · split
    · exact Tallies.bind (reduceTimes_tallies _ env) fun _ =>
        Tallies.bind consume_tallies fun _ => Tallies.pure rfl
    · exact continueWithOperators_tallies sign
  · exact continueWithOperators_tallies sign

theorem pushLiteral_nodes (lit : Literal) : (env.pushLiteral lit).nodes = env.nodes := by
  simp [pushLiteral, nodes, Tree.nodesOf, Tree.nodes]

theorem step_tallies : Tallies (env.step g tokens) env.nodes (Step.nodes env.nodes) := by
  unfold step
  split
  · exact finish_tallies
  · split
    · exact openWith_tallies _
    · exact Tallies.pure (pushLiteral_nodes _)
    · exact Tallies.pure (pushLiteral_nodes _)
    · exact continueWith_tallies _
    · exact Tallies.pure rfl
    · refine Tallies.bind required_tallies fun _ => ?_
      split
      · split
        · exact consume_tallies.map fun _ => rfl
        · exact Tallies.pure rfl
      · exact Tallies.pure rfl

end Env

end Mixfix
