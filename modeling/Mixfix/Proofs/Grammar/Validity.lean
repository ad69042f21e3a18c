import Mixfix.Grammar.Groups
import Mathlib

namespace Mixfix

theorem leadSign_getElem : ∀ {l : List Slot} {i : Nat} {s : String},
    leadSign l = some (i, s) → l[i]? = some (.sign s)
  | [], _, _, h => by simp [leadSign] at h
  | .sign t :: _, i, s, h => by
    simp only [leadSign, Option.some.injEq, Prod.mk.injEq] at h
    obtain ⟨rfl, rfl⟩ := h
    rfl
  | .hole _ :: rest, i, s, h => by
    simp only [leadSign, Option.map_eq_some_iff, Prod.exists] at h
    obtain ⟨j, t, hj, hij⟩ := h
    simp only [Prod.mk.injEq] at hij
    obtain ⟨rfl, rfl⟩ := hij
    have hget := leadSign_getElem hj
    simpa using hget

theorem leadSign_before : ∀ {l : List Slot} {i : Nat} {s : String},
    leadSign l = some (i, s) → ∀ j < i, (l[j]?.map Slot.isHole) = some true
  | [], _, _, h => by simp [leadSign] at h
  | .sign t :: _, i, s, h => by
    simp only [leadSign, Option.some.injEq, Prod.mk.injEq] at h
    obtain ⟨rfl, rfl⟩ := h
    intro j hj
    omega
  | .hole _ :: rest, i, s, h => by
    simp only [leadSign, Option.map_eq_some_iff, Prod.exists] at h
    obtain ⟨k, t, hk, hik⟩ := h
    simp only [Prod.mk.injEq] at hik
    obtain ⟨rfl, rfl⟩ := hik
    intro j hj
    cases j with
    | zero => rfl
    | succ j => exact leadSign_before hk j (by omega)

theorem hasAdjacentHoles_false : ∀ {l : List Slot}, hasAdjacentHoles l = false →
    ∀ {i : Nat} {a : Option String} {x : Slot}, l[i]? = some (.hole a) → l[i + 1]? = some x →
      x.isHole = false
  | [], _, _, _, _, h, _ => by simp at h
  | [_], _, _, _, _, _, hx => by simp at hx
  | y :: z :: rest, h, i, a, x, hi, hx => by
    simp only [hasAdjacentHoles, Bool.or_eq_false_iff, Bool.and_eq_false_iff] at h
    cases i with
    | zero =>
      simp only [List.getElem?_cons_zero, Option.some.injEq] at hi
      simp only [Nat.zero_add, List.getElem?_cons_succ, List.getElem?_cons_zero,
        Option.some.injEq] at hx
      subst hi hx
      simpa [Slot.isHole] using h.1
    | succ i =>
      exact hasAdjacentHoles_false h.2 (by simpa using hi) (by simpa using hx)

theorem countP_take_sign {l : List Slot} {k : Nat} {s : String} (h : l[k]? = some (.sign s)) :
    (l.take (k + 1)).countP Slot.isHole = (l.take k).countP Slot.isHole := by
  simp [List.take_add_one, h, Slot.isHole]

theorem countP_take_hole {l : List Slot} {k : Nat} {a : Option String}
    (h : l[k]? = some (.hole a)) :
    (l.take (k + 1)).countP Slot.isHole = (l.take k).countP Slot.isHole + 1 := by
  simp [List.take_add_one, h, Slot.isHole]

theorem Slot.eq_sign_of_isHole {x : Slot} (h : x.isHole = false) : ∃ s, x = .sign s := by
  cases x with
  | sign s => exact ⟨s, rfl⟩
  | hole _ => simp [Slot.isHole] at h

namespace Entry

variable {ι : Type}

def opensWithHole (e : Entry ι) : Bool :=
  (e.operator.pattern.head?.map Slot.isHole).getD false

def closesWithHole (e : Entry ι) : Bool :=
  (e.operator.pattern.getLast?.map Slot.isHole).getD false

/-- The operands a node takes before its pattern: one for a left-associative chain. -/
def leading (e : Entry ι) : Nat :=
  if e.operator.kind == .chain && e.assoc == .left then 1 else 0

/-- The shape validation gives an entry: the checks it passed and the data derived from them. -/
structure Valid (e : Entry ι) : Prop where
  lead : leadSign e.operator.pattern = some (e.lead, e.firstSign)
  separated : hasAdjacentHoles e.operator.pattern = false
  valueEdges : e.operator.kind = .value → e.opensWithHole = false ∧ e.closesWithHole = false
  leftEdge : e.operator.kind = .chain → e.assoc = .left → e.opensWithHole = false
  rightEdge : e.operator.kind = .chain → e.assoc = .right → e.closesWithHole = false
  restEnd : e.restEnd = e.operator.pattern.length - (if e.closesWithHole then 1 else 0)
  arity : e.arity =
    e.operator.pattern.countP Slot.isHole + (if e.operator.kind = .chain then 1 else 0)
  bound : e.bound.isSome = e.endsWithExpression

variable {e : Entry ι}

theorem closesWithHole_eq (e : Entry ι) : e.closesWithHole =
    (e.operator.pattern[e.operator.pattern.length - 1]?.map Slot.isHole).getD false := by
  simp [closesWithHole, List.getLast?_eq_getElem?]

theorem opensWithHole_eq (e : Entry ι) :
    e.opensWithHole = (e.operator.pattern[0]?.map Slot.isHole).getD false := by
  simp [opensWithHole, List.head?_eq_getElem?]

theorem Valid.lead_sign (h : e.Valid) : e.operator.pattern[e.lead]? = some (.sign e.firstSign) :=
  leadSign_getElem h.lead

theorem Valid.lead_lt_length (h : e.Valid) : e.lead < e.operator.pattern.length := by
  have hs := h.lead_sign
  exact (List.getElem?_eq_some_iff.mp hs).1

theorem Valid.restEnd_le (h : e.Valid) : e.restEnd ≤ e.operator.pattern.length := by
  rw [h.restEnd]
  omega

theorem Valid.last_hole (h : e.Valid) (hc : e.closesWithHole = true) :
    e.restEnd + 1 = e.operator.pattern.length ∧
      ∃ a, e.operator.pattern[e.restEnd]? = some (.hole a) := by
  have hl := h.lead_lt_length
  rw [h.restEnd, hc, if_pos rfl]
  rw [closesWithHole_eq] at hc
  refine ⟨by omega, ?_⟩
  cases hx : e.operator.pattern[e.operator.pattern.length - 1]? with
  | none => simp [hx] at hc
  | some x =>
    cases x with
    | sign s => simp [hx, Slot.isHole] at hc
    | hole a => exact ⟨a, rfl⟩

theorem Valid.lead_lt_restEnd (h : e.Valid) : e.lead < e.restEnd := by
  have hl := h.lead_lt_length
  cases hc : e.closesWithHole with
  | false => rw [h.restEnd, hc]; simpa using hl
  | true =>
    obtain ⟨hlen, a, ha⟩ := h.last_hole hc
    have hne : e.lead ≠ e.restEnd := by
      intro heq
      rw [← heq, h.lead_sign] at ha
      cases ha
    omega

theorem Valid.sign_after_hole (h : e.Valid) {k : Nat} {a : Option String} (hk : k < e.restEnd)
    (ha : e.operator.pattern[k]? = some (.hole a)) :
    k + 1 < e.restEnd ∧ ∃ s, e.operator.pattern[k + 1]? = some (.sign s) := by
  have hle := h.restEnd_le
  by_cases hlast : k + 1 < e.operator.pattern.length
  · obtain ⟨x, hx⟩ : ∃ x, e.operator.pattern[k + 1]? = some x :=
      ⟨_, List.getElem?_eq_getElem hlast⟩
    obtain ⟨s, rfl⟩ := Slot.eq_sign_of_isHole (hasAdjacentHoles_false h.separated ha hx)
    refine ⟨?_, s, hx⟩
    cases hc : e.closesWithHole with
    | false => rw [h.restEnd, hc]; simpa using hlast
    | true =>
      obtain ⟨hlen, b, hb⟩ := h.last_hole hc
      have hne : k + 1 ≠ e.restEnd := by
        intro heq
        rw [← heq, hx] at hb
        cases hb
      omega
  · have hc : e.closesWithHole = true := by
      rw [closesWithHole_eq, show e.operator.pattern.length - 1 = k by omega, ha]
      rfl
    have := (h.last_hole hc).1
    omega

theorem Valid.opening (h : e.Valid) (hs : e.startsWithExpression = false) :
    e.lead = 0 ∧ e.leading = 0 := by
  have hopen : e.opensWithHole = false := by
    cases hk : e.operator.kind with
    | value => exact (h.valueEdges hk).1
    | chain =>
      simp only [startsWithExpression, hk, beq_self_eq_true, Bool.true_and,
        Bool.or_eq_false_iff] at hs
      exact hs.2
  have hlead : e.lead = 0 := by
    refine (Nat.eq_zero_or_pos e.lead).resolve_right fun hpos => ?_
    have h0 := leadSign_before h.lead 0 hpos
    rw [opensWithHole_eq] at hopen
    cases hx : e.operator.pattern[0]? with
    | none => simp [hx] at h0
    | some x => simp_all
  refine ⟨hlead, ?_⟩
  simp only [leading, ite_eq_right_iff]
  intro hc
  simp only [startsWithExpression, Bool.and_eq_false_iff, Bool.or_eq_false_iff] at hs
  simp only [Bool.and_eq_true] at hc
  rcases hs with hs | hs
  · exact absurd hc.1 (by simpa using hs)
  · exact absurd hc.2 (by simpa using hs.1)

theorem Valid.lead_eq_zero (h : e.Valid) (ho : e.opensWithHole = false) : e.lead = 0 := by
  refine (Nat.eq_zero_or_pos e.lead).resolve_right fun hpos => ?_
  have h0 := leadSign_before h.lead 0 hpos
  rw [opensWithHole_eq] at ho
  cases hx : e.operator.pattern[0]? with
  | none => simp [hx] at h0
  | some x => simp_all

theorem Valid.last_sign (h : e.Valid) (hc : e.closesWithHole = false) :
    ∃ s, e.operator.pattern[e.operator.pattern.length - 1]? = some (.sign s) := by
  have hl := h.lead_lt_length
  obtain ⟨x, hx⟩ : ∃ x, e.operator.pattern[e.operator.pattern.length - 1]? = some x :=
    ⟨_, List.getElem?_eq_getElem (by omega)⟩
  rw [closesWithHole_eq, hx] at hc
  obtain ⟨s, rfl⟩ := Slot.eq_sign_of_isHole hc
  exact ⟨s, hx⟩

theorem Valid.continuing (h : e.Valid) (hs : e.startsWithExpression = true) :
    (e.leading = 1 ∧ e.lead = 0) ∨
      (e.leading = 0 ∧ e.lead = 1 ∧ ∃ a, e.operator.pattern[0]? = some (.hole a)) := by
  simp only [startsWithExpression, Bool.and_eq_true, beq_iff_eq, Bool.or_eq_true] at hs
  obtain ⟨hk, hs⟩ := hs
  cases ha : e.assoc with
  | left =>
    left
    exact ⟨by simp [leading, hk, ha], h.lead_eq_zero (h.leftEdge hk ha)⟩
  | right =>
    right
    have ho : e.opensWithHole = true := by simpa [ha, opensWithHole] using hs
    rw [opensWithHole_eq] at ho
    obtain ⟨a, hx⟩ : ∃ a, e.operator.pattern[0]? = some (.hole a) := by
      cases hx : e.operator.pattern[0]? with
      | none => simp [hx] at ho
      | some x =>
        cases x with
        | sign s => simp [hx, Slot.isHole] at ho
        | hole a => exact ⟨a, rfl⟩
    have hne : e.lead ≠ 0 := by
      intro h0
      have hl := h.lead_sign
      rw [h0, hx] at hl
      cases hl
    have hlt : e.lead < 2 := by
      refine Nat.lt_of_not_le fun h2 => ?_
      have h1 := leadSign_before h.lead 1 (by omega)
      obtain ⟨y, hy⟩ := Option.map_eq_some_iff.mp h1
      exact absurd hy.2 (by simp [hasAdjacentHoles_false h.separated hx hy.1])
    exact ⟨by simp [leading, ha], by omega, a, hx⟩

theorem Valid.trailing (h : e.Valid) (hb : e.bound.isSome = true) :
    0 < e.restEnd ∧ (∃ s, e.operator.pattern[e.restEnd - 1]? = some (.sign s)) ∧
      e.leading + (e.operator.pattern.take e.restEnd).countP Slot.isHole + 1 = e.arity ∧
      ((e.leading = 0 ∧ e.operator.pattern.drop e.restEnd = []) ∨
        (e.leading = 1 ∧ ∃ a, e.operator.pattern.drop e.restEnd = [.hole a])) := by
  have hlead := h.lead_lt_restEnd
  rw [h.bound] at hb
  simp only [endsWithExpression, Bool.and_eq_true, beq_iff_eq, Bool.or_eq_true] at hb
  obtain ⟨hk, hb⟩ := hb
  cases ha : e.assoc with
  | right =>
    have hc := h.rightEdge hk ha
    have hr : e.restEnd = e.operator.pattern.length := by rw [h.restEnd, hc]; simp
    have hlg : e.leading = 0 := by simp [leading, ha]
    refine ⟨by omega, by rw [hr]; exact h.last_sign hc, ?_, .inl ⟨hlg, by simp [hr]⟩⟩
    rw [h.arity, hlg, hr, List.take_length, if_pos hk]
    omega
  | left =>
    have hc : e.closesWithHole = true := by simpa [ha, closesWithHole] using hb
    obtain ⟨hlen, a, hx⟩ := h.last_hole hc
    have hlg : e.leading = 1 := by simp [leading, hk, ha]
    obtain ⟨y, hy⟩ : ∃ y, e.operator.pattern[e.restEnd - 1]? = some y :=
      ⟨_, List.getElem?_eq_getElem (by omega)⟩
    have hy' : e.operator.pattern[e.restEnd - 1 + 1]? = some (.hole a) := by
      rw [Nat.sub_add_cancel (by omega)]; exact hx
    have hys : y.isHole = false := by
      cases y with
      | sign _ => rfl
      | hole b => exact absurd (hasAdjacentHoles_false h.separated hy hy') (by simp [Slot.isHole])
    obtain ⟨s, rfl⟩ := Slot.eq_sign_of_isHole hys
    have hcount := countP_take_hole hx
    rw [hlen, List.take_length] at hcount
    refine ⟨by omega, ⟨s, hy⟩, ?_, .inr ⟨hlg, a, ?_⟩⟩
    · rw [h.arity, hlg, if_pos hk, hcount]
      omega
    · rw [List.drop_eq_getElem_cons (by omega), List.drop_eq_nil_of_le (by omega)]
      simpa using (List.getElem?_eq_some_iff.mp hx).2

theorem Valid.complete (h : e.Valid) (hb : e.bound = none) :
    e.restEnd = e.operator.pattern.length ∧
      (∃ s, e.operator.pattern[e.operator.pattern.length - 1]? = some (.sign s)) ∧
      e.leading + e.operator.pattern.countP Slot.isHole = e.arity := by
  have hend : e.endsWithExpression = false := by
    rw [← h.bound, hb]; rfl
  have hc : e.closesWithHole = false := by
    cases hk : e.operator.kind with
    | value => exact (h.valueEdges hk).2
    | chain =>
      simp only [endsWithExpression, hk, beq_self_eq_true, Bool.true_and, Bool.or_eq_false_iff]
        at hend
      exact hend.2
  refine ⟨by rw [h.restEnd, hc]; simp, h.last_sign hc, ?_⟩
  rw [h.arity]
  cases hk : e.operator.kind with
  | value => simp [leading, hk]
  | chain =>
    have ha : e.assoc = .left := by
      cases ha : e.assoc with
      | left => rfl
      | right => simp [endsWithExpression, hk, ha] at hend
    simp [leading, hk, ha]
    omega

theorem derive_spec {names : List String} {priority : Nat} {assoc : Assoc} {op : Operator ι}
    (h : Entry.derive names priority assoc op = .ok e) :
    e.Valid ∧ e.operator = op ∧ e.priority = priority ∧ e.assoc = assoc := by
  simp only [Entry.derive, bind, Except.bind, pure, Except.pure, Entry.endsWithExpression] at h
  split at h
  case h_2 => simp [throw, throwThe, MonadExceptOf.throw] at h
  rename_i lead first hlead
  simp only [throw, throwThe, MonadExceptOf.throw] at h
  split at h
  · cases h
  split at h
  · cases h
  rename_i hsign hadj
  split at h <;> (split at h; · cases h) <;> (split at h; · cases h) <;>
    (rcases ite_eq_iff.mp h with ⟨hc, h⟩ | ⟨hc, h⟩ <;> cases h)
  all_goals
    refine ⟨⟨hlead, by simpa using hadj, ?_, ?_, ?_, ?_, by simp, ?_⟩, rfl, rfl, rfl⟩ <;>
      simp_all [opensWithHole, closesWithHole, Entry.endsWithExpression]

end Entry

namespace Table

variable {ι : Type} [DecidableEq ι]

/-- What validation guarantees of a table: valid entries naming distinct operators. -/
structure Valid (t : Table ι) : Prop where
  entries : ∀ e ∈ t.entries, e.Valid
  distinct : t.entries.Pairwise fun a b => a.operator.id ≠ b.operator.id

theorem add_valid {names : List String} {t t' : Table ι} {p : Nat × Assoc × Operator ι}
    (ht : t.Valid) (h : t.add names p = .ok t') : t'.Valid := by
  obtain ⟨priority, assoc, op⟩ := p
  simp only [add, bind, Except.bind, pure, Except.pure, throw, throwThe, MonadExceptOf.throw] at h
  split at h
  · cases h
  rename_i hfresh
  split at h
  · cases h
  rename_i e he
  cases h
  obtain ⟨hv, hop, -, -⟩ := Entry.derive_spec he
  refine ⟨?_, ?_⟩
  · intro e' he'
    rcases List.mem_append.mp he' with he' | he'
    · exact ht.entries e' he'
    · rw [List.mem_singleton.mp he']; exact hv
  · refine List.pairwise_append.mpr ⟨ht.distinct, by simp, ?_⟩
    intro a ha b hb
    rw [List.mem_singleton.mp hb, hop]
    intro hid
    exact hfresh (List.any_eq_true.mpr ⟨a, ha, by simp [hid]⟩)

theorem foldlM_add_valid {names : List String} :
    ∀ (ps : List (Nat × Assoc × Operator ι)) {t₀ t : Table ι}, t₀.Valid →
      ps.foldlM (add names) t₀ = .ok t → t.Valid
  | [], t₀, t, h₀, h => by
    simp only [List.foldlM_nil, pure, Except.pure, Except.ok.injEq] at h
    exact h ▸ h₀
  | p :: ps, t₀, t, h₀, h => by
    simp only [List.foldlM_cons, bind, Except.bind] at h
    split at h
    · cases h
    · exact foldlM_add_valid ps (add_valid h₀ ‹_›) h

theorem ofLevels_valid {levels : List (Level ι)} {t : Table ι}
    (h : Table.ofLevels levels = .ok t) : t.Valid :=
  foldlM_add_valid _ ⟨by simp, by simp⟩ h

theorem find?_id_of_mem {e : Entry ι} :
    ∀ {l : List (Entry ι)}, l.Pairwise (fun a b => a.operator.id ≠ b.operator.id) →
      e ∈ l → l.find? (·.operator.id == e.operator.id) = some e
  | [], _, he => by simp at he
  | a :: rest, hd, he => by
    rw [List.pairwise_cons] at hd
    rcases List.mem_cons.mp he with rfl | he
    · simp
    · have hne : a.operator.id ≠ e.operator.id := hd.1 e he
      simp [hne, find?_id_of_mem hd.2 he]

theorem Valid.find?_entry {t : Table ι} (ht : t.Valid) {e : Entry ι} (he : e ∈ t.entries) :
    t.find? e.operator.id = some e :=
  find?_id_of_mem ht.distinct he

end Table

namespace Groups

variable {ι : Type}

theorem bySign_lookup {es : List (Entry ι)} {signs : List String} {s : String}
    {g : List (Entry ι)} (h : (bySign es signs).lookup s = some g) :
    g ≠ [] ∧ ∀ e ∈ g, e ∈ es ∧ e.firstSign = s := by
  obtain ⟨l₁, l₂, hl, -⟩ := List.lookup_eq_some_iff.mp h
  have hmem : (s, g) ∈ bySign es signs := by rw [hl]; simp
  obtain ⟨s', -, hs'⟩ := List.mem_filterMap.mp hmem
  split at hs'
  · cases hs'
  · rename_i hne
    cases hs'
    refine ⟨hne, fun e he => ?_⟩
    rw [ofSign, List.mem_mergeSort, List.mem_filter] at he
    exact ⟨he.1, by simpa using he.2⟩

theorem bySign_length {es : List (Entry ι)} {signs : List String} {s : String}
    {g : List (Entry ι)} (h : (bySign es signs).lookup s = some g) : g.length ≤ es.length := by
  obtain ⟨l₁, l₂, hl, -⟩ := List.lookup_eq_some_iff.mp h
  have hmem : (s, g) ∈ bySign es signs := by rw [hl]; simp
  obtain ⟨s', -, hs'⟩ := List.mem_filterMap.mp hmem
  split at hs'
  · cases hs'
  · cases hs'
    rw [ofSign, List.length_mergeSort]
    exact List.length_filter_le _ _

variable {t : Table ι} {s : String} {g : List (Entry ι)}

theorem length_le_of_group
    (h : (Groups.ofTable t).opening? s = some g ∨ (Groups.ofTable t).continuing? s = some g) :
    g.length ≤ t.entries.length := by
  rcases h with h | h <;>
  · exact (bySign_length h).trans (List.length_filter_le _ _)

theorem ofTable_of_entries_nil (h : t.entries = []) (s : String) :
    (Groups.ofTable t).opening? s = none ∧ (Groups.ofTable t).continuing? s = none := by
  have hnil : ∀ signs : List String, bySign ([] : List (Entry ι)) signs = [] := by
    intro signs
    simp [bySign, ofSign]
  simp [opening?, continuing?, ofTable, h, hnil]

theorem opening_spec (h : (Groups.ofTable t).opening? s = some g) :
    g ≠ [] ∧
      ∀ e ∈ g, e ∈ t.entries ∧ e.startsWithExpression = false ∧ e.firstSign = s := by
  obtain ⟨hne, hg⟩ := bySign_lookup h
  refine ⟨hne, fun e he => ?_⟩
  obtain ⟨he, hs⟩ := hg e he
  rw [List.mem_filter] at he
  exact ⟨he.1, by simpa using he.2, hs⟩

theorem continuing_spec (h : (Groups.ofTable t).continuing? s = some g) :
    g ≠ [] ∧
      ∀ e ∈ g, e ∈ t.entries ∧ e.startsWithExpression = true ∧ e.firstSign = s := by
  obtain ⟨hne, hg⟩ := bySign_lookup h
  refine ⟨hne, fun e he => ?_⟩
  obtain ⟨he, hs⟩ := hg e he
  rw [List.mem_filter] at he
  exact ⟨he.1, he.2, hs⟩

end Groups
end Mixfix
