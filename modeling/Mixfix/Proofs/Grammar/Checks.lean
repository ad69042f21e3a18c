import Mixfix.Proofs.Grammar.Derivation

namespace Mixfix

variable {ι : Type}

theorem leadSign_eq_none_iff : ∀ {p : List Slot}, leadSign p = none ↔ ∀ x ∈ p, x.isHole = true
  | [] => by simp [leadSign]
  | .sign s :: _ => by simp [leadSign, Slot.isHole]
  | .hole _ :: rest => by simp [leadSign, Slot.isHole, leadSign_eq_none_iff]

theorem exists_sign_iff_leadSign {p : List Slot} :
    (∃ s, Slot.sign s ∈ p) ↔ (leadSign p).isSome := by
  rw [Option.isSome_iff_ne_none, ne_eq, leadSign_eq_none_iff]
  constructor
  · rintro ⟨s, hs⟩ h
    cases h _ hs
  · intro h
    simp only [not_forall] at h
    obtain ⟨x, hx, hhole⟩ := h
    obtain ⟨s, rfl⟩ := Slot.eq_sign_of_isHole (by simpa using hhole)
    exact ⟨s, hx⟩

theorem badSign_iff {p : List Slot} :
    (p.any fun x => (x.sign?.map fun s => !validSign s).getD false) = true ↔
      ∃ s, Slot.sign s ∈ p ∧ validSign s = false := by
  rw [List.any_eq_true]
  constructor
  · rintro ⟨x, hx, h⟩
    cases x with
    | sign s => exact ⟨s, hx, by simpa [Slot.sign?] using h⟩
    | hole _ => simp [Slot.sign?] at h
  · rintro ⟨s, hs, h⟩
    exact ⟨_, hs, by simp [Slot.sign?, h]⟩

theorem hasAdjacentHoles_iff : ∀ {p : List Slot},
    hasAdjacentHoles p = true ↔ ∃ l l', [Slot.hole l, .hole l'] <:+: p
  | [] => by simp [hasAdjacentHoles]
  | [a] => by
    simp only [hasAdjacentHoles, Bool.false_eq_true, false_iff, not_exists]
    intro l l' h
    simpa using h.length_le
  | a :: b :: rest => by
    rw [hasAdjacentHoles, Bool.or_eq_true, hasAdjacentHoles_iff]
    constructor
    · rintro (h | ⟨l, l', h⟩)
      · rcases a with s | l <;> rcases b with s' | l' <;> simp [Slot.isHole] at h
        exact ⟨l, l', (List.prefix_append [_, _] rest).isInfix⟩
      · exact ⟨l, l', List.infix_cons h⟩
    · rintro ⟨l, l', h⟩
      rcases List.infix_cons_iff.mp h with h | h
      · simp only [List.cons_prefix_cons] at h
        obtain ⟨rfl, rfl, -⟩ := h
        exact .inl rfl
      · exact .inr ⟨l, l', h⟩

theorem levelIndex?_isSome_iff {names : List String} {l : String} :
    (levelIndex? names l).isSome = true ↔ l ∈ names := by
  rw [← not_iff_not, Bool.not_eq_true, Option.isSome_eq_false_iff, Option.isNone_iff_eq_none,
    levelIndex?, List.findIdx?_eq_none_iff]
  constructor
  · intro h hl
    simpa using h l hl
  · intro h x hx
    simp only [beq_eq_false_iff_ne]
    rintro rfl
    exact h hx

theorem levelIndex?_isNone_iff {names : List String} {l : String} :
    (levelIndex? names l).isNone = true ↔ l ∉ names := by
  rw [← levelIndex?_isSome_iff, ← Option.not_isSome, Bool.not_eq_true', Bool.not_eq_true]

theorem find_unknown_iff {names : List String} {p : List Slot} {l : String} :
    (holeLimits p).find? (fun l => (levelIndex? names l).isNone) = some l ↔
      ∃ pre post, holeLimits p = pre ++ l :: post ∧ (∀ x ∈ pre, x ∈ names) ∧ l ∉ names := by
  rw [List.find?_eq_some_iff_append, levelIndex?_isNone_iff]
  constructor
  · rintro ⟨hl, pre, post, hp, hpre⟩
    exact ⟨pre, post, hp, fun x hx => by simpa [levelIndex?_isSome_iff] using hpre x hx, hl⟩
  · rintro ⟨pre, post, hp, hpre, hl⟩
    exact ⟨hl, pre, post, hp, fun x hx => by simpa [levelIndex?_isSome_iff] using hpre x hx⟩

def OpensWithHole (p : List Slot) : Prop :=
  ∃ l, p.head? = some (.hole l)

def ClosesWithHole (p : List Slot) : Prop :=
  ∃ l, p.getLast? = some (.hole l)

theorem opensWithHole_iff {p : List Slot} :
    (p.head?.map Slot.isHole).getD false = true ↔ OpensWithHole p := by
  rw [OpensWithHole]
  rcases p.head? with _ | (s | l) <;> simp [Slot.isHole]

theorem closesWithHole_iff {p : List Slot} :
    (p.getLast?.map Slot.isHole).getD false = true ↔ ClosesWithHole p := by
  rw [ClosesWithHole]
  rcases p.getLast? with _ | (s | l) <;> simp [Slot.isHole]

theorem opens_eq_false_iff {p : List Slot} :
    (p.head?.map Slot.isHole).getD false = false ↔ ¬ OpensWithHole p := by
  rw [Bool.eq_false_iff, ne_eq, opensWithHole_iff]

theorem closes_eq_false_iff {p : List Slot} :
    (p.getLast?.map Slot.isHole).getD false = false ↔ ¬ ClosesWithHole p := by
  rw [Bool.eq_false_iff, ne_eq, closesWithHole_iff]

/-- The edges a kind and associativity allow: a value operator begins and ends with a sign, a
left-associative chain begins with one, a right-associative chain ends with one. -/
def Edged : Kind → Assoc → List Slot → Prop
  | .value, _, p => ¬ OpensWithHole p ∧ ¬ ClosesWithHole p
  | .chain, .left, p => ¬ OpensWithHole p
  | .chain, .right, p => ¬ ClosesWithHole p

/-- The checks of a pattern before its edges: it holds a sign, every sign is nonempty and without
blanks, and no two holes stand side by side. -/
structure Operator.Shaped (op : Operator ι) : Prop where
  signed : ∃ s, Slot.sign s ∈ op.pattern
  signs : ∀ s, Slot.sign s ∈ op.pattern → validSign s = true
  spaced : ¬ ∃ l l', [Slot.hole l, .hole l'] <:+: op.pattern

/-- An operator of a level of associativity `assoc` passes the checks of validation, in a table
whose levels are named `names`. -/
structure Operator.Sound (names : List String) (assoc : Assoc) (op : Operator ι) : Prop
    extends op.Shaped where
  edged : Edged op.kind assoc op.pattern
  limits : ∀ l ∈ holeLimits op.pattern, l ∈ names

/-- The error of the first check an operator fails, in the order validation makes them. -/
inductive Operator.Fails (names : List String) (assoc : Assoc) (op : Operator ι) :
    TableError ι → Prop
  | noSign : (∀ x ∈ op.pattern, x.isHole = true) → Operator.Fails names assoc op (.noSign op.id)
  | badSign : (∃ s, Slot.sign s ∈ op.pattern) → (∃ s, Slot.sign s ∈ op.pattern ∧ validSign s = false) →
      Operator.Fails names assoc op (.invalidPattern op.id .badSign)
  | adjacentHoles : (∃ s, Slot.sign s ∈ op.pattern) →
      (∀ s, Slot.sign s ∈ op.pattern → validSign s = true) →
      (∃ l l', [Slot.hole l, .hole l'] <:+: op.pattern) →
      Operator.Fails names assoc op (.invalidPattern op.id .adjacentHoles)
  | valueEdge : op.Shaped → op.kind = .value → OpensWithHole op.pattern ∨ ClosesWithHole op.pattern →
      Operator.Fails names assoc op (.invalidPattern op.id .valueEdgeHole)
  | leftChainLeadingHole : op.Shaped → op.kind = .chain → assoc = .left → OpensWithHole op.pattern →
      Operator.Fails names assoc op (.invalidPattern op.id .leftChainLeadingHole)
  | rightChainTrailingHole : op.Shaped → op.kind = .chain → assoc = .right →
      ClosesWithHole op.pattern →
      Operator.Fails names assoc op (.invalidPattern op.id .rightChainTrailingHole)
  | unknownLevel (pre post : List String) (l : String) : op.Shaped → Edged op.kind assoc op.pattern →
      holeLimits op.pattern = pre ++ l :: post → (∀ x ∈ pre, x ∈ names) → l ∉ names →
      Operator.Fails names assoc op (.unknownLevel op.id l)

namespace Operator

variable {names : List String} {assoc : Assoc} {op : Operator ι}

theorem check_of_signs (hsigns : ∀ s, Slot.sign s ∈ op.pattern → validSign s = true) :
    (op.pattern.any fun x => (x.sign?.map fun s => !validSign s).getD false) = false := by
  rw [Bool.eq_false_iff, ne_eq, badSign_iff]
  rintro ⟨s, hs, hbad⟩
  simp [hsigns s hs] at hbad

theorem Shaped.checks (h : op.Shaped) :
    ∃ lead first, leadSign op.pattern = some (lead, first) ∧
      (op.pattern.any fun x => (x.sign?.map fun s => !validSign s).getD false) = false ∧
      hasAdjacentHoles op.pattern = false := by
  obtain ⟨⟨lead, first⟩, hl⟩ := Option.isSome_iff_exists.mp (exists_sign_iff_leadSign.mp h.signed)
  refine ⟨lead, first, hl, check_of_signs h.signs, ?_⟩
  rw [Bool.eq_false_iff, ne_eq, hasAdjacentHoles_iff]
  exact h.spaced

theorem signs_of_check
    (hb : ¬ (op.pattern.any fun x => (x.sign?.map fun s => !validSign s).getD false) = true) :
    ∀ s, Slot.sign s ∈ op.pattern → validSign s = true := by
  intro s hs
  by_contra hv
  exact hb (badSign_iff.mpr ⟨s, hs, by simpa using hv⟩)

theorem shaped_of_checks (hl : (leadSign op.pattern).isSome)
    (hb : ¬ (op.pattern.any fun x => (x.sign?.map fun s => !validSign s).getD false) = true)
    (ha : ¬ hasAdjacentHoles op.pattern = true) : op.Shaped where
  signed := exists_sign_iff_leadSign.mpr hl
  signs := signs_of_check hb
  spaced := fun hadj => ha (hasAdjacentHoles_iff.mpr hadj)

theorem Fails.not_sound {e : TableError ι} (h : op.Fails names assoc e) : ¬ op.Sound names assoc := by
  intro hs
  cases h with
  | noSign hall =>
    obtain ⟨s, hmem⟩ := hs.signed
    cases hall _ hmem
  | badSign _ hbad =>
    obtain ⟨s, hmem, hv⟩ := hbad
    simp [hs.signs s hmem] at hv
  | adjacentHoles _ _ hadj => exact hs.spaced hadj
  | valueEdge _ hk hedge =>
    have hedged := hs.edged
    rw [hk] at hedged
    rcases hedge with ho | hc
    · exact hedged.1 ho
    · exact hedged.2 hc
  | leftChainLeadingHole _ hk ha hedge =>
    have hedged := hs.edged
    rw [hk, ha] at hedged
    exact hedged hedge
  | rightChainTrailingHole _ hk ha hedge =>
    have hedged := hs.edged
    rw [hk, ha] at hedged
    exact hedged hedge
  | unknownLevel pre post l _ _ hp _ hl =>
    exact hl (hs.limits l (by simp [hp]))

theorem Fails.of_find_unknown {l : String} (hs : op.Shaped)
    (hedged : Edged op.kind assoc op.pattern)
    (hf : (holeLimits op.pattern).find? (fun l => (levelIndex? names l).isNone) = some l) :
    op.Fails names assoc (.unknownLevel op.id l) := by
  obtain ⟨pre, post, hp, hpre, hl⟩ := find_unknown_iff.mp hf
  exact .unknownLevel pre post l hs hedged hp hpre hl

end Operator

namespace Entry

variable {names : List String} {priority : Nat} {assoc : Assoc} {op : Operator ι}
  {e : TableError ι}

theorem derive_fails (h : Entry.derive names priority assoc op = .error e) :
    op.Fails names assoc e := by
  simp only [Entry.derive, bind, Except.bind, pure, Except.pure, throw, throwThe,
    MonadExceptOf.throw] at h
  cases hl : leadSign op.pattern with
  | none =>
    rw [hl] at h
    cases h
    exact .noSign (leadSign_eq_none_iff.mp hl)
  | some p =>
    obtain ⟨lead, first⟩ := p
    have hsigned : ∃ s, Slot.sign s ∈ op.pattern := exists_sign_iff_leadSign.mpr (by simp [hl])
    rw [hl] at h
    dsimp only at h
    split at h
    · cases h
      exact .badSign hsigned (badSign_iff.mp ‹_›)
    rename_i hb
    split at h
    · cases h
      exact .adjacentHoles hsigned (Operator.signs_of_check hb) (hasAdjacentHoles_iff.mp ‹_›)
    rename_i ha
    have hs : op.Shaped := Operator.shaped_of_checks (by simp [hl]) hb ha
    split at h <;> rename_i hk <;> split at h <;> rename_i hedge
    · cases h
      exact .valueEdge hs hk (by simpa [opensWithHole_iff, closesWithHole_iff] using hedge)
    · split at h
      · cases h
        refine .of_find_unknown hs ?_ ‹_›
        rw [hk]
        simpa [Edged, opensWithHole_iff, closesWithHole_iff] using hedge
      · rcases ite_eq_iff.mp h with ⟨-, h⟩ | ⟨-, h⟩ <;> cases h
    · cases h
      exact .leftChainLeadingHole hs hk rfl (opensWithHole_iff.mp hedge)
    · split at h
      · cases h
        refine .of_find_unknown hs ?_ ‹_›
        rw [hk]
        simpa [Edged, opensWithHole_iff] using hedge
      · rcases ite_eq_iff.mp h with ⟨-, h⟩ | ⟨-, h⟩ <;> cases h
    · cases h
      exact .rightChainTrailingHole hs hk rfl (closesWithHole_iff.mp hedge)
    · split at h
      · cases h
        refine .of_find_unknown hs ?_ ‹_›
        rw [hk]
        simpa [Edged, closesWithHole_iff] using hedge
      · rcases ite_eq_iff.mp h with ⟨-, h⟩ | ⟨-, h⟩ <;> cases h

theorem derive_of_fails (h : op.Fails names assoc e) :
    Entry.derive names priority assoc op = .error e := by
  simp only [Entry.derive, bind, Except.bind, pure, Except.pure, throw, throwThe,
    MonadExceptOf.throw]
  cases h with
  | noSign hall => rw [leadSign_eq_none_iff.mpr hall]
  | badSign hsigned hbad =>
    obtain ⟨⟨lead, first⟩, hl⟩ := Option.isSome_iff_exists.mp (exists_sign_iff_leadSign.mp hsigned)
    simp [hl, badSign_iff.mpr hbad]
  | adjacentHoles hsigned hsigns hadj =>
    obtain ⟨⟨lead, first⟩, hl⟩ := Option.isSome_iff_exists.mp (exists_sign_iff_leadSign.mp hsigned)
    simp [hl, Operator.check_of_signs hsigns, hasAdjacentHoles_iff.mpr hadj]
  | valueEdge hs hk hedge =>
    obtain ⟨lead, first, hl, hb, ha⟩ := hs.checks
    have hedge' := (Bool.or_eq_true _ _).mpr
      (hedge.imp opensWithHole_iff.mpr closesWithHole_iff.mpr)
    simp [hl, hb, ha, hk, hedge']
  | leftChainLeadingHole hs hk ha' hedge =>
    obtain ⟨lead, first, hl, hb, ha⟩ := hs.checks
    subst ha'
    simp [hl, hb, ha, hk, opensWithHole_iff.mpr hedge]
  | rightChainTrailingHole hs hk ha' hedge =>
    obtain ⟨lead, first, hl, hb, ha⟩ := hs.checks
    subst ha'
    simp [hl, hb, ha, hk, closesWithHole_iff.mpr hedge]
  | unknownLevel pre post l hs hedged hp hpre hl' =>
    obtain ⟨lead, first, hl, hb, ha⟩ := hs.checks
    have hfind := find_unknown_iff.mpr ⟨pre, post, hp, hpre, hl'⟩
    cases hk : op.kind with
    | value =>
      rw [hk] at hedged
      simp [hl, hb, ha, opens_eq_false_iff.mpr hedged.1, closes_eq_false_iff.mpr hedged.2, hfind]
    | chain =>
      rw [hk] at hedged
      cases assoc with
      | left => simp [hl, hb, ha, opens_eq_false_iff.mpr hedged, hfind]
      | right => simp [hl, hb, ha, closes_eq_false_iff.mpr hedged, hfind]

theorem derive_sound {en : Entry ι} (h : Entry.derive names priority assoc op = .ok en) :
    op.Sound names assoc := by
  obtain ⟨hv, hop, -, has⟩ := derive_spec h
  obtain ⟨hsigns, hlimits, -⟩ := derive_checks h
  subst hop has
  refine ⟨⟨exists_sign_iff_leadSign.mpr (by simp [hv.lead]), hsigns, fun hadj => ?_⟩, ?_,
    fun l hl => levelIndex?_isSome_iff.mp (hlimits l hl)⟩
  · have hsep := hv.separated
    rw [hasAdjacentHoles_iff.mpr hadj] at hsep
    cases hsep
  · cases hk : en.operator.kind with
    | value =>
      obtain ⟨ho, hc⟩ := hv.valueEdges hk
      exact ⟨opens_eq_false_iff.mp ho, closes_eq_false_iff.mp hc⟩
    | chain =>
      cases ha : en.assoc with
      | left => exact opens_eq_false_iff.mp (hv.leftEdge hk ha)
      | right => exact closes_eq_false_iff.mp (hv.rightEdge hk ha)

theorem derive_eq_error_iff :
    Entry.derive names priority assoc op = .error e ↔ op.Fails names assoc e :=
  ⟨derive_fails, derive_of_fails⟩

theorem derive_isOk_iff :
    (∃ en, Entry.derive names priority assoc op = .ok en) ↔ op.Sound names assoc := by
  constructor
  · rintro ⟨en, h⟩
    exact derive_sound h
  · intro hs
    cases h : Entry.derive names priority assoc op with
    | ok en => exact ⟨en, rfl⟩
    | error e => exact absurd hs (derive_fails h).not_sound

end Entry

namespace Table

variable {names : List String}

/-- Operators placed in table order that validation accepts after operators with identifiers
`seen`: each has a new identifier and passes its checks. -/
def Admits (names : List String) : List ι → List (Nat × Assoc × Operator ι) → Prop
  | _, [] => True
  | seen, p :: ps => p.2.2.id ∉ seen ∧ p.2.2.Sound names p.2.1 ∧ Admits names (seen ++ [p.2.2.id]) ps

/-- The error validation reports for the operator `p` after operators with identifiers `seen`: a
repeated identifier, or else the first check it fails. -/
def Rejects (names : List String) (seen : List ι) (p : Nat × Assoc × Operator ι)
    (e : TableError ι) : Prop :=
  (p.2.2.id ∈ seen ∧ e = .duplicate p.2.2.id) ∨ (p.2.2.id ∉ seen ∧ p.2.2.Fails names p.2.1 e)

/-- Placed operators that validation accepts: no identifier comes twice and every operator passes
its checks. -/
structure Passes (names : List String) (ps : List (Nat × Assoc × Operator ι)) : Prop where
  distinct : (ps.map (·.2.2.id)).Nodup
  sound : ∀ p ∈ ps, p.2.2.Sound names p.2.1

theorem admits_iff : ∀ {seen : List ι} {ps : List (Nat × Assoc × Operator ι)},
    Admits names seen ps ↔ (∀ p ∈ ps, p.2.2.id ∉ seen) ∧ Passes names ps
  | seen, [] => by
    simp only [Admits, true_iff]
    exact ⟨(fun _ h => nomatch h), List.nodup_nil, fun _ h => nomatch h⟩
  | seen, p :: ps => by
    rw [Admits, admits_iff]
    constructor
    · rintro ⟨hnew, hp, hfresh, hps⟩
      have hother : ∀ q ∈ ps, q.2.2.id ≠ p.2.2.id := fun q hq h => hfresh q hq (by simp [h])
      refine ⟨?_, List.nodup_cons.mpr ⟨?_, hps.distinct⟩, ?_⟩
      · intro q hq
        rcases List.mem_cons.mp hq with rfl | hq
        · exact hnew
        · exact fun h => hfresh q hq (List.mem_append_left _ h)
      · simpa using hother
      · intro q hq
        rcases List.mem_cons.mp hq with rfl | hq
        · exact hp
        · exact hps.sound q hq
    · rintro ⟨hfresh, hdistinct, hsound⟩
      obtain ⟨hp, hps⟩ := List.nodup_cons.mp hdistinct
      refine ⟨hfresh p List.mem_cons_self, hsound p List.mem_cons_self, ?_,
        hps, fun q hq => hsound q (List.mem_cons_of_mem _ hq)⟩
      intro q hq hmem
      rcases List.mem_append.mp hmem with h | h
      · exact hfresh q (List.mem_cons_of_mem _ hq) h
      · rw [List.mem_singleton] at h
        exact hp (List.mem_map.mpr ⟨q, hq, h⟩)

theorem Rejects.not_admitted {seen : List ι} {p : Nat × Assoc × Operator ι} {e : TableError ι}
    (h : Rejects names seen p e) (hnew : p.2.2.id ∉ seen) (hp : p.2.2.Sound names p.2.1) : False := by
  rcases h with ⟨hseen, -⟩ | ⟨-, hf⟩
  · exact hnew hseen
  · exact hf.not_sound hp

variable [DecidableEq ι]

theorem add_eq_error_iff {t : Table ι} {p : Nat × Assoc × Operator ι} {e : TableError ι} :
    t.add names p = .error e ↔ Rejects names (t.entries.map (·.operator.id)) p e := by
  obtain ⟨priority, assoc, op⟩ := p
  simp only [add, bind, Except.bind, pure, Except.pure, throw, throwThe, MonadExceptOf.throw,
    Rejects]
  have hany : (t.entries.any fun x => x.operator.id == op.id) = true ↔
      op.id ∈ t.entries.map (·.operator.id) := by
    simp
  by_cases hd : op.id ∈ t.entries.map (·.operator.id)
  · rw [if_pos (hany.mpr hd)]
    simp [hd, eq_comm]
  · rw [if_neg (mt hany.mp hd), ← @Entry.derive_eq_error_iff ι names priority assoc op e]
    cases Entry.derive names priority assoc op <;> simp [hd]

theorem add_isOk_iff {t : Table ι} {p : Nat × Assoc × Operator ι} :
    (∃ t', t.add names p = .ok t') ↔
      p.2.2.id ∉ t.entries.map (·.operator.id) ∧ p.2.2.Sound names p.2.1 := by
  constructor
  · rintro ⟨t', h⟩
    obtain ⟨en, hen, -⟩ := add_eq_ok h
    refine ⟨fun hd => ?_, Entry.derive_sound hen⟩
    have herr : t.add names p = .error (.duplicate p.2.2.id) := add_eq_error_iff.mpr (.inl ⟨hd, rfl⟩)
    rw [h] at herr
    cases herr
  · rintro ⟨hnew, hp⟩
    cases h : t.add names p with
    | ok t' => exact ⟨t', rfl⟩
    | error e => exact ((add_eq_error_iff.mp h).not_admitted hnew hp).elim

theorem ids_add {t t' : Table ι} {p : Nat × Assoc × Operator ι} (h : t.add names p = .ok t') :
    t'.entries.map (·.operator.id) = t.entries.map (·.operator.id) ++ [p.2.2.id] := by
  obtain ⟨en, hen, rfl⟩ := add_eq_ok h
  simp [(Entry.derive_spec hen).2.1]

theorem foldlM_add_isOk_iff : ∀ (ps : List (Nat × Assoc × Operator ι)) {t : Table ι},
    (∃ t', ps.foldlM (add names) t = .ok t') ↔ Admits names (t.entries.map (·.operator.id)) ps
  | [], t => by simp [Admits, pure, Except.pure]
  | q :: qs, t => by
    rw [List.foldlM_cons]
    cases h : t.add names q with
    | error e =>
      have hrej := add_eq_error_iff.mp h
      simp only [bind, Except.bind, reduceCtorEq, exists_false, Admits, false_iff, not_and]
      exact fun hnew hq _ => hrej.not_admitted hnew hq
    | ok t' =>
      obtain ⟨hnew, hq⟩ := add_isOk_iff.mp ⟨t', h⟩
      simp only [bind, Except.bind]
      rw [foldlM_add_isOk_iff qs, ids_add h, Admits]
      exact ⟨fun hqs => ⟨hnew, hq, hqs⟩, fun hqs => hqs.2.2⟩

theorem foldlM_add_eq_error_iff : ∀ (ps : List (Nat × Assoc × Operator ι)) {t : Table ι}
    {e : TableError ι}, ps.foldlM (add names) t = .error e ↔
      ∃ pre p post, ps = pre ++ p :: post ∧ Admits names (t.entries.map (·.operator.id)) pre ∧
        Rejects names (t.entries.map (·.operator.id) ++ pre.map (·.2.2.id)) p e
  | [], t, e => by simp [pure, Except.pure]
  | q :: qs, t, e => by
    rw [List.foldlM_cons]
    cases h : t.add names q with
    | error e' =>
      have hrej := add_eq_error_iff.mp h
      simp only [bind, Except.bind, Except.error.injEq]
      constructor
      · rintro rfl
        exact ⟨[], q, qs, rfl, trivial, by simpa using hrej⟩
      · rintro ⟨pre, p, post, hps, hadm, hrej'⟩
        cases pre with
        | nil =>
          obtain ⟨rfl, rfl⟩ := List.cons.inj hps
          have h' := add_eq_error_iff.mpr (by simpa using hrej')
          rw [h] at h'
          exact Except.error.inj h'
        | cons r pre' =>
          obtain ⟨rfl, -⟩ := List.cons.inj hps
          exact (hrej.not_admitted hadm.1 hadm.2.1).elim
    | ok t' =>
      obtain ⟨hnew, hq⟩ := add_isOk_iff.mp ⟨t', h⟩
      simp only [bind, Except.bind]
      rw [foldlM_add_eq_error_iff qs, ids_add h]
      constructor
      · rintro ⟨pre, p, post, rfl, hadm, hrej⟩
        exact ⟨q :: pre, p, post, rfl, ⟨hnew, hq, hadm⟩, by simpa using hrej⟩
      · rintro ⟨pre, p, post, hps, hadm, hrej⟩
        cases pre with
        | nil =>
          obtain ⟨rfl, -⟩ := List.cons.inj hps
          exact ((by simpa using hrej : Rejects names _ q e).not_admitted hnew hq).elim
        | cons r pre' =>
          obtain ⟨rfl, hqs⟩ := List.cons.inj hps
          exact ⟨pre', p, post, hqs, hadm.2.2, by simpa using hrej⟩

/-- Validation accepts levels exactly when no identifier comes twice and every operator passes its
checks. Otherwise it reports the error of the first operator at fault, in table order, level by
level: a repeated identifier, or else the first check of its own that it fails. Identifiers are
values of their own type, so none lies outside the range of identifiers. -/
theorem ofLevels_checks (levels : List (Level ι)) :
    ((∃ t, Table.ofLevels levels = .ok t) ↔ Passes (levels.map (·.name)) (placed levels)) ∧
      ∀ e, Table.ofLevels levels = .error e ↔
        ∃ pre p post, placed levels = pre ++ p :: post ∧ Passes (levels.map (·.name)) pre ∧
          Rejects (levels.map (·.name)) (pre.map (·.2.2.id)) p e := by
  refine ⟨?_, fun e => ?_⟩
  · rw [ofLevels, foldlM_add_isOk_iff, admits_iff]
    simp
  · rw [ofLevels, foldlM_add_eq_error_iff]
    simp [admits_iff]

end Table

end Mixfix
