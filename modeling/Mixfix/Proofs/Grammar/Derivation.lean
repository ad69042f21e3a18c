import Mixfix.Proofs.Grammar.Validity
import Mixfix.Calculator.Op

namespace Mixfix

/-- The bound on the operand that trails an operator of level `priority`: the next level on a
right-associative level; on a left-associative one, the level after the one the limit of the last
hole names, or the operator's own level when there is no limit. There is none when a limit names
no level. -/
def trailingBound (names : List String) (priority : Nat) (assoc : Assoc) (last : Option Slot) :
    Option Nat :=
  match assoc, last with
  | .right, _ => some (priority + 1)
  | .left, some (.hole (some l)) => (levelIndex? names l).map (· + 1)
  | .left, _ => some priority

theorem mem_holeLimits_of_getLast? : ∀ {pattern : List Slot} {l : String},
    pattern.getLast? = some (.hole (some l)) → l ∈ holeLimits pattern
  | [], _, h => by simp at h
  | [_], l, h => by
    simp only [List.getLast?_singleton, Option.some.injEq] at h
    simp [h, holeLimits]
  | x :: y :: rest, l, h => by
    rw [List.getLast?_cons_cons] at h
    have hl := mem_holeLimits_of_getLast? h
    cases x with
    | sign _ => simpa [holeLimits] using hl
    | hole a => cases a <;> simp [holeLimits, hl]

def patternSigns (pattern : List Slot) : List String :=
  pattern.filterMap Slot.sign?

theorem eraseDups_append_singleton (l : List String) (s : String) :
    (l ++ [s]).eraseDups = if l.contains s then l.eraseDups else l.eraseDups ++ [s] := by
  rw [List.eraseDups_append]
  by_cases hs : s ∈ l
  · simp [List.removeAll, hs]
  · simp [List.removeAll, hs, List.eraseDups_cons]

theorem addSigns_eraseDups : ∀ (l : List String) (pattern : List Slot),
    addSigns l.eraseDups pattern = (l ++ patternSigns pattern).eraseDups
  | l, [] => by simp [addSigns, patternSigns]
  | l, .sign s :: rest => by
    have hstep : addSigns l.eraseDups (.sign s :: rest) = addSigns (l ++ [s]).eraseDups rest := by
      simp only [addSigns, List.foldl_cons, eraseDups_append_singleton]
      by_cases hs : s ∈ l <;> simp [hs]
    rw [hstep, addSigns_eraseDups]
    simp [patternSigns, Slot.sign?]
  | l, .hole a :: rest => by
    have hstep : addSigns l.eraseDups (.hole a :: rest) = addSigns l.eraseDups rest := rfl
    rw [hstep, addSigns_eraseDups]
    simp [patternSigns, Slot.sign?, List.filterMap_cons]

namespace Entry

variable {ι : Type} {names : List String} {priority : Nat} {assoc : Assoc} {op : Operator ι}
  {e : Entry ι}

theorem derive_checks (h : Entry.derive names priority assoc op = .ok e) :
    (∀ s, Slot.sign s ∈ op.pattern → validSign s = true) ∧
      (∀ l ∈ holeLimits op.pattern, (levelIndex? names l).isSome) ∧
      e.bound = if e.endsWithExpression then
        trailingBound names e.priority e.assoc e.operator.pattern.getLast? else none := by
  simp only [Entry.derive, bind, Except.bind, pure, Except.pure, throw, throwThe,
    MonadExceptOf.throw] at h
  split at h
  case h_2 => cases h
  split at h
  · cases h
  split at h
  · cases h
  rename_i hsign _
  have hvalid : ∀ s, Slot.sign s ∈ op.pattern → validSign s = true := by
    intro s hs
    have hs' := List.any_eq_false.mp (by simpa using hsign) _ hs
    simpa [Slot.sign?] using hs'
  split at h <;> (split at h; · cases h) <;> (split at h; · cases h)
  all_goals
    rename_i hlim
    have hknown : ∀ l ∈ holeLimits op.pattern, (levelIndex? names l).isSome := by
      intro l hl
      have hnone := List.find?_eq_none.mp
        (Option.eq_none_iff_forall_ne_some.mpr fun l h => hlim l h) l hl
      exact Option.isSome_iff_ne_none.mpr (by simpa using hnone)
    refine ⟨hvalid, hknown, ?_⟩
    -- the limit of a trailing hole names a level, so its index is never the fallback
    have hk : ∀ l, op.pattern.getLast? = some (.hole (some l)) →
        some ((levelIndex? names l).getD priority) = levelIndex? names l := fun l hl =>
      Option.getD_of_ne_none
        (Option.isSome_iff_ne_none.mp (hknown l (mem_holeLimits_of_getLast? hl))) _
    rcases ite_eq_iff.mp h with ⟨hc, h⟩ | ⟨hc, h⟩ <;> cases h <;>
      simp only [Entry.endsWithExpression] at hc ⊢ <;>
      simp only [hc, ↓reduceIte, Bool.false_eq_true]
  all_goals
    rcases hlast : op.pattern.getLast? with _ | (s | (_ | l)) <;> simp_all [trailingBound]

theorem Valid.lead_eq (h : e.Valid) :
    e.lead = if e.operator.kind = .chain ∧ e.opensWithHole = true then 1 else 0 := by
  cases ho : e.opensWithHole with
  | false => simp [h.lead_eq_zero ho]
  | true =>
    have hk : e.operator.kind = .chain := by
      cases hk : e.operator.kind with
      | value => simp [(h.valueEdges hk).1] at ho
      | chain => rfl
    have hs : e.startsWithExpression = true := by
      simp only [startsWithExpression, hk, beq_self_eq_true, Bool.true_and, Bool.or_eq_true]
      exact .inr ho
    rcases h.continuing hs with ⟨hl, -⟩ | ⟨-, hlead, -⟩
    · have ha : e.assoc = .left := by
        cases ha : e.assoc with
        | left => rfl
        | right => simp [leading, ha] at hl
      simp [h.leftEdge hk ha] at ho
    · simp [hlead, hk]

/-- What derivation fixes of an entry of a table whose levels are named `names`: its shape, its
lead sign, and the bound on its trailing operand. -/
structure Derived (names : List String) (e : Entry ι) : Prop where
  valid : e.Valid
  lead : e.lead = if e.operator.kind = .chain ∧ e.opensWithHole = true then 1 else 0
  bound : e.bound = if e.endsWithExpression then
    trailingBound names e.priority e.assoc e.operator.pattern.getLast? else none

theorem validSign_of_derive (h : Entry.derive names priority assoc op = .ok e) {s : String}
    (hs : s ∈ patternSigns e.operator.pattern) : validSign s = true := by
  obtain ⟨slot, hslot, hsign⟩ := List.mem_filterMap.mp hs
  cases slot with
  | hole _ => cases hsign
  | sign s' =>
    simp only [Slot.sign?, Option.some.injEq] at hsign
    subst hsign
    rw [(derive_spec h).2.1] at hslot
    exact (derive_checks h).1 s' hslot

theorem derive_derived (h : Entry.derive names priority assoc op = .ok e) : e.Derived names :=
  have hv := (derive_spec h).1
  ⟨hv, hv.lead_eq, (derive_checks h).2.2⟩

end Entry

namespace Table

variable {ι : Type} {names : List String}

theorem map_of_forall₂_derive : ∀ {es : List (Entry ι)} {ps : List (Nat × Assoc × Operator ι)},
    List.Forall₂ (fun e p => Entry.derive names p.1 p.2.1 p.2.2 = .ok e) es ps →
      es.map (fun e => (e.priority, e.assoc, e.operator)) = ps
  | _, _, .nil => rfl
  | _, _, .cons hd hrest => by
    obtain ⟨-, hop, hpr, has⟩ := Entry.derive_spec hd
    simp [hop, hpr, has, map_of_forall₂_derive hrest]

theorem exists_of_forall₂_derive : ∀ {es : List (Entry ι)} {ps : List (Nat × Assoc × Operator ι)},
    List.Forall₂ (fun e p => Entry.derive names p.1 p.2.1 p.2.2 = .ok e) es ps →
      ∀ e ∈ es, ∃ p : Nat × Assoc × Operator ι, Entry.derive names p.1 p.2.1 p.2.2 = .ok e
  | _, _, .nil, _, he => by simp at he
  | _, _, .cons hd hrest, e, he => by
    rcases List.mem_cons.mp he with rfl | he
    · exact ⟨_, hd⟩
    · exact exists_of_forall₂_derive hrest e he

variable [DecidableEq ι]

theorem add_eq_ok {t t' : Table ι} {p : Nat × Assoc × Operator ι} (h : t.add names p = .ok t') :
    ∃ e, Entry.derive names p.1 p.2.1 p.2.2 = .ok e ∧
      t' = { t with entries := t.entries ++ [e], signs := addSigns t.signs e.operator.pattern } := by
  obtain ⟨priority, assoc, op⟩ := p
  simp only [add, bind, Except.bind, pure, Except.pure, throw, throwThe, MonadExceptOf.throw] at h
  split at h
  · cases h
  split at h
  · cases h
  rename_i e he
  cases h
  exact ⟨e, he, by rw [(Entry.derive_spec he).2.1]⟩

theorem foldlM_add_eq_ok : ∀ (ps : List (Nat × Assoc × Operator ι)) {t₀ t : Table ι},
    ps.foldlM (add names) t₀ = .ok t →
      t.levels = t₀.levels ∧ ∃ es, t.entries = t₀.entries ++ es ∧
        List.Forall₂ (fun e p => Entry.derive names p.1 p.2.1 p.2.2 = .ok e) es ps ∧
        t.signs = es.foldl (fun acc e => addSigns acc e.operator.pattern) t₀.signs
  | [], t₀, t, h => by
    simp only [List.foldlM_nil, pure, Except.pure, Except.ok.injEq] at h
    subst h
    exact ⟨rfl, [], by simp, .nil, rfl⟩
  | p :: ps, t₀, t, h => by
    simp only [List.foldlM_cons, bind, Except.bind] at h
    split at h
    · cases h
    rename_i t₁ h₁
    obtain ⟨e, he, rfl⟩ := add_eq_ok h₁
    obtain ⟨hlevels, es, hentries, hderive, hsigns⟩ := foldlM_add_eq_ok ps h
    exact ⟨hlevels, e :: es, by rw [hentries]; simp, .cons he hderive, hsigns⟩

theorem ofLevels_eq_ok {levels : List (Level ι)} {t : Table ι} (h : Table.ofLevels levels = .ok t) :
    t.levels = levels.map (fun l => (l.name, l.assoc)) ∧
      List.Forall₂ (fun e p => Entry.derive (levels.map (·.name)) p.1 p.2.1 p.2.2 = .ok e)
        t.entries (placed levels) ∧
      t.signs = (t.entries.flatMap fun e => patternSigns e.operator.pattern).eraseDups := by
  obtain ⟨hlevels, es, hentries, hderive, hsigns⟩ := foldlM_add_eq_ok _ h
  simp only [List.nil_append] at hentries
  subst hentries
  refine ⟨hlevels, hderive, ?_⟩
  have hfold : ∀ (l : List String) (es : List (Entry ι)),
      es.foldl (fun acc e => addSigns acc e.operator.pattern) l.eraseDups =
        (l ++ es.flatMap fun e => patternSigns e.operator.pattern).eraseDups := by
    intro l es
    induction es generalizing l with
    | nil => simp
    | cons e es ih => simp [addSigns_eraseDups, ih]
  simpa using hsigns.trans (hfold [] t.entries)

theorem Valid.indexOf?_eq_some_iff {t : Table ι} (ht : t.Valid) {id : ι} {i : Nat} :
    t.indexOf? id = some i ↔ t.entries[i]?.map (·.operator.id) = some id := by
  unfold indexOf?
  rw [List.findIdx?_eq_some_iff_getElem]
  constructor
  · rintro ⟨hi, hid, -⟩
    simp [List.getElem?_eq_getElem hi, by simpa using hid]
  · intro h
    obtain ⟨e, he, hid⟩ := Option.map_eq_some_iff.mp h
    obtain ⟨hi, rfl⟩ := List.getElem?_eq_some_iff.mp he
    refine ⟨hi, by simpa using hid, fun j hj => ?_⟩
    have hne := List.pairwise_iff_getElem.mp ht.distinct j i (by omega) hi hj
    simpa [← hid] using hne

/-- What validation derives from levels: the levels' names and associativities; the operators in
table order, each with its level's index and associativity; an entry derived from each; each
identifier finding its entry's position; and the distinct signs of the patterns in the order they
first appear, each a sign. -/
structure Derived (levels : List (Level ι)) (t : Table ι) : Prop where
  levels_eq : t.levels = levels.map fun l => (l.name, l.assoc)
  entries_eq : t.entries.map (fun e => (e.priority, e.assoc, e.operator)) = placed levels
  derived : ∀ e ∈ t.entries, e.Derived (levels.map (·.name))
  indexOf_iff : ∀ id i, t.indexOf? id = some i ↔ t.entries[i]?.map (·.operator.id) = some id
  signs_eq : t.signs = (t.entries.flatMap fun e => patternSigns e.operator.pattern).eraseDups
  signs_valid : ∀ s ∈ t.signs, validSign s = true

theorem ofLevels_validSign {levels : List (Level ι)} {t : Table ι}
    (h : Table.ofLevels levels = .ok t) : ∀ s ∈ t.signs, validSign s = true := by
  obtain ⟨-, hderive, hsigns⟩ := ofLevels_eq_ok h
  intro s hs
  -- a sign of the table is a sign of some pattern, which derivation checked
  rw [hsigns, List.mem_eraseDups, List.mem_flatMap] at hs
  obtain ⟨e, he, hs⟩ := hs
  obtain ⟨p, hp⟩ := exists_of_forall₂_derive hderive e he
  exact Entry.validSign_of_derive hp hs

/-- Validated levels derive their table as `Derived` says. -/
theorem ofLevels_derived {levels : List (Level ι)} {t : Table ι}
    (h : Table.ofLevels levels = .ok t) : t.Derived levels := by
  obtain ⟨hlevels, hderive, hsigns⟩ := ofLevels_eq_ok h
  refine ⟨hlevels, map_of_forall₂_derive hderive, fun e he => ?_,
    fun id i => (ofLevels_valid h).indexOf?_eq_some_iff, hsigns, ofLevels_validSign h⟩
  obtain ⟨p, hp⟩ := exists_of_forall₂_derive hderive e he
  exact Entry.derive_derived hp

theorem ofLevels_products_sums :
    Table.ofLevels [⟨"product", .left, [⟨Calculator.Op.mul, .chain, [.sign "*", .hole none]⟩]⟩,
        ⟨"sum", .left, [⟨Calculator.Op.add, .chain, [.sign "+", .hole (some "product")]⟩]⟩] =
      .ok ⟨[("product", .left), ("sum", .left)],
        [⟨⟨Calculator.Op.mul, .chain, [.sign "*", .hole none]⟩, 0, .left, 0, "*", 1, 2, some 0⟩,
          ⟨⟨Calculator.Op.add, .chain, [.sign "+", .hole (some "product")]⟩, 1, .left, 0, "+", 1,
            2, some 1⟩],
        ["*", "+"]⟩ := by
  simp +decide [Table.ofLevels, Table.placed, Table.add, Entry.derive, leadSign, validSign,
    String.any, String.contains_bool_eq, Text.isBlank, Slot.sign?, Slot.isHole, holeLimits,
    addSigns, levelIndex?]
  rfl

theorem products_sums_derived :
    ∃ t, Table.ofLevels
        [⟨"product", .left, [⟨Calculator.Op.mul, .chain, [.sign "*", .hole none]⟩]⟩,
          ⟨"sum", .left, [⟨Calculator.Op.add, .chain, [.sign "+", .hole (some "product")]⟩]⟩] =
        .ok t ∧
      t.Derived [⟨"product", .left, [⟨Calculator.Op.mul, .chain, [.sign "*", .hole none]⟩]⟩,
          ⟨"sum", .left, [⟨Calculator.Op.add, .chain, [.sign "+", .hole (some "product")]⟩]⟩] :=
  ⟨_, ofLevels_products_sums, ofLevels_derived ofLevels_products_sums⟩

end Table

end Mixfix
