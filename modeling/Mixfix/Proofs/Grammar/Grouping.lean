import Mixfix.Proofs.Grammar.Derivation

namespace Mixfix

theorem nodup_eraseDups {α : Type} [BEq α] [LawfulBEq α] : ∀ (l : List α), l.eraseDups.Nodup
  | [] => List.nodup_nil
  | a :: rest => by
    have hlt : (rest.filter fun b => !b == a).length < rest.length + 1 :=
      Nat.lt_succ_of_le (List.length_filter_le _ _)
    rw [List.eraseDups_cons]
    refine List.nodup_cons.mpr ⟨fun ha => ?_, nodup_eraseDups _⟩
    simp at ha
termination_by l => l.length

theorem perm_flatMap_filter_key {α : Type} (key : α → String) :
    ∀ {keys : List String} {xs : List α}, keys.Nodup → (∀ x ∈ xs, key x ∈ keys) →
      (keys.flatMap fun k => xs.filter (key · == k)).Perm xs
  | [], xs, _, hx => by
    have hxs : xs = [] := List.eq_nil_iff_forall_not_mem.mpr fun x h => by simpa using hx x h
    subst hxs
    rfl
  | k :: keys, xs, hnd, hx => by
    obtain ⟨hk, hnd⟩ := List.nodup_cons.mp hnd
    have hrest : (keys.flatMap fun k' => xs.filter (key · == k')) =
        keys.flatMap fun k' => (xs.filter fun x => !key x == k).filter (key · == k') := by
      refine List.flatMap_congr fun k' hk' => ?_
      rw [List.filter_filter]
      refine List.filter_congr fun x _ => ?_
      by_cases hx' : key x = k' <;> simp [hx', show k' ≠ k from fun h => hk (h ▸ hk')]
    have hleft : ∀ x ∈ xs.filter (fun x => !key x == k), key x ∈ keys := by
      intro x hxm
      obtain ⟨hxs, hne⟩ := List.mem_filter.mp hxm
      rcases List.mem_cons.mp (hx x hxs) with h | h
      · simp [h] at hne
      · exact h
    rw [List.flatMap_cons, hrest]
    exact ((perm_flatMap_filter_key key hnd hleft).append_left _).trans
      (List.filter_append_perm _ xs)

namespace Groups

variable {ι : Type} {es : List (Entry ι)} {signs : List String} {s : String}

/-- How groups keyed by sign arrange the entries `es`: each key once, no group empty, every entry
once under its lead sign and nothing else, each group longest pattern first, and the entries of
one pattern length in the order of `es`. -/
structure Arranged (es : List (Entry ι)) (groups : List (String × List (Entry ι))) : Prop where
  keys : (groups.map Prod.fst).Nodup
  nonempty : ∀ g ∈ groups, g.2 ≠ []
  placed : (groups.flatMap fun g => g.2.map fun e => (g.1, e)).Perm
    (es.map fun e => (e.firstSign, e))
  longestFirst : ∀ g ∈ groups,
    g.2.Pairwise fun a b => b.operator.pattern.length ≤ a.operator.pattern.length
  stable : ∀ g ∈ groups, ∀ n, g.2.filter (fun e => e.operator.pattern.length = n) =
    es.filter fun e => e.firstSign = g.1 ∧ e.operator.pattern.length = n

theorem ofSign_perm : (ofSign es s).Perm (es.filter (·.firstSign == s)) :=
  List.mergeSort_perm _ _

theorem ofSign_longestFirst :
    (ofSign es s).Pairwise fun a b => b.operator.pattern.length ≤ a.operator.pattern.length := by
  refine (List.pairwise_mergeSort (fun a b c hab hbc => ?_) (fun a b => ?_) _).imp ?_
  · simp only [decide_eq_true_eq] at hab hbc ⊢
    omega
  · simp only [Bool.or_eq_true, decide_eq_true_eq]
    omega
  · intro a b hab
    simpa using hab

theorem ofSign_filter_length (n : Nat) :
    (ofSign es s).filter (fun e => e.operator.pattern.length = n) =
      es.filter fun e => e.firstSign = s ∧ e.operator.pattern.length = n := by
  have hsub : List.Sublist
      ((es.filter (·.firstSign == s)).filter fun e => e.operator.pattern.length = n)
      (ofSign es s) := by
    refine List.sublist_mergeSort (fun a b c hab hbc => ?_) (fun a b => ?_) ?_ List.filter_sublist
    · simp only [decide_eq_true_eq] at hab hbc ⊢
      omega
    · simp only [Bool.or_eq_true, decide_eq_true_eq]
      omega
    · refine List.Pairwise.imp_of_mem (fun {a b} ha hb _ => ?_)
        (List.pairwise_of_forall fun _ _ => trivial)
      simp only [List.mem_filter, decide_eq_true_eq] at ha hb
      simp [ha.2, hb.2]
  have hlen : ((ofSign es s).filter fun e => e.operator.pattern.length = n).length =
      ((es.filter (·.firstSign == s)).filter fun e => e.operator.pattern.length = n).length :=
    (ofSign_perm.filter _).length_eq
  have hkeep : (((es.filter (·.firstSign == s)).filter fun e => e.operator.pattern.length = n).filter
      fun e => e.operator.pattern.length = n) =
      (es.filter (·.firstSign == s)).filter fun e => e.operator.pattern.length = n :=
    List.filter_eq_self.mpr fun e he => (List.mem_filter.mp he).2
  have heq := ((hsub.filter fun e => decide (e.operator.pattern.length = n)).eq_of_length
    (by rw [hkeep, hlen]))
  rw [← heq, hkeep, List.filter_filter]
  refine List.filter_congr fun e _ => ?_
  by_cases hs : e.firstSign = s <;> simp [hs]

theorem mem_bySign {g : String × List (Entry ι)} :
    g ∈ bySign es signs ↔ g.1 ∈ signs ∧ g.2 = ofSign es g.1 ∧ g.2 ≠ [] := by
  obtain ⟨k, grp⟩ := g
  simp only [bySign, List.mem_filterMap]
  constructor
  · rintro ⟨s', hs', hg⟩
    split at hg
    · cases hg
    · rename_i hne
      cases hg
      exact ⟨hs', rfl, hne⟩
  · rintro ⟨hs', rfl, hne⟩
    refine ⟨k, hs', ?_⟩
    split
    · contradiction
    · rfl

theorem flatMap_bySign (es : List (Entry ι)) :
    ∀ signs : List String, ((bySign es signs).flatMap fun g => g.2.map fun e => (g.1, e)) =
      signs.flatMap fun s => (ofSign es s).map fun e => (s, e)
  | [] => rfl
  | s :: rest => by
    have hrest := flatMap_bySign es rest
    simp only [bySign, List.filterMap_cons, List.flatMap_cons] at hrest ⊢
    cases hg : ofSign es s with
    | nil => simp [hrest]
    | cons e grp => simp [hrest]

theorem map_fst_bySign_sublist (es : List (Entry ι)) :
    ∀ signs : List String, List.Sublist ((bySign es signs).map Prod.fst) signs
  | [] => .slnil
  | s :: rest => by
    have hrest := map_fst_bySign_sublist es rest
    simp only [bySign, List.filterMap_cons] at hrest ⊢
    cases ofSign es s with
    | nil => exact hrest.cons s
    | cons e grp => exact hrest.cons_cons s

theorem bySign_arranged (hnd : signs.Nodup) (hes : ∀ e ∈ es, e.firstSign ∈ signs) :
    Arranged es (bySign es signs) := by
  refine ⟨(map_fst_bySign_sublist es signs).nodup hnd, fun g hg => (mem_bySign.mp hg).2.2, ?_,
    fun g hg => ?_, fun g hg n => ?_⟩
  · rw [flatMap_bySign]
    have hgroups : (signs.flatMap fun s => (ofSign es s).map fun e => (s, e)).Perm
        (signs.flatMap fun s => (es.filter (·.firstSign == s)).map fun e => (e.firstSign, e)) := by
      refine List.Perm.flatMap_left _ fun s _ => ?_
      rw [List.map_congr_left (g := fun e => (e.firstSign, e)) fun e he => ?_]
      · exact ofSign_perm.map _
      · have he' := ofSign_perm.mem_iff.mp he
        simp only [List.mem_filter, beq_iff_eq] at he'
        rw [he'.2]
    refine hgroups.trans ?_
    rw [← List.map_flatMap]
    exact (perm_flatMap_filter_key Entry.firstSign hnd hes).map _
  · rw [(mem_bySign.mp hg).2.1]
    exact ofSign_longestFirst
  · rw [(mem_bySign.mp hg).2.1]
    exact ofSign_filter_length n

variable [DecidableEq ι] {levels : List (Level ι)} {t : Table ι}

theorem firstSign_mem_signs (h : Table.ofLevels levels = .ok t) :
    ∀ e ∈ t.entries, e.firstSign ∈ t.signs := by
  intro e he
  rw [(Table.ofLevels_eq_ok h).2.2, List.mem_eraseDups, List.mem_flatMap]
  refine ⟨e, he, List.mem_filterMap.mpr ⟨.sign e.firstSign, ?_, rfl⟩⟩
  exact List.mem_of_getElem? ((Table.ofLevels_valid h).entries e he).lead_sign

/-- The grouping of a validated table: its entries are distinct, and the opening and continuing
groups each arrange the entries of their context. -/
theorem ofTable_arranged (h : Table.ofLevels levels = .ok t) :
    t.entries.Nodup ∧
      Arranged (t.entries.filter (!·.startsWithExpression)) (Groups.ofTable t).opening ∧
      Arranged (t.entries.filter (·.startsWithExpression)) (Groups.ofTable t).continuing := by
  have hnd : t.signs.Nodup := by
    rw [(Table.ofLevels_eq_ok h).2.2]
    exact nodup_eraseDups _
  have hfirst := firstSign_mem_signs h
  refine ⟨(Table.ofLevels_valid h).distinct.imp fun hne heq => hne (congrArg (·.operator.id) heq),
    bySign_arranged hnd fun e he => hfirst e (List.mem_of_mem_filter he),
    bySign_arranged hnd fun e he => hfirst e (List.mem_of_mem_filter he)⟩

theorem products_sums_arranged :
    ∃ t, Table.ofLevels
        [⟨"product", .left, [⟨Calculator.Op.mul, .chain, [.sign "*", .hole none]⟩]⟩,
          ⟨"sum", .left, [⟨Calculator.Op.add, .chain, [.sign "+", .hole (some "product")]⟩]⟩] =
        .ok t ∧ t.entries.Nodup ∧
      Arranged (t.entries.filter (!·.startsWithExpression)) (Groups.ofTable t).opening ∧
      Arranged (t.entries.filter (·.startsWithExpression)) (Groups.ofTable t).continuing :=
  ⟨_, Table.ofLevels_products_sums, ofTable_arranged Table.ofLevels_products_sums⟩

end Groups

end Mixfix
