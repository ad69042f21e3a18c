import Mixfix.Proofs.Parse.Reading
import Mixfix.Proofs.Parse.RoundTrip
import Mixfix.Proofs.Token.Rescan

namespace Mixfix

section Layout

variable {α β : Type} (sign : String → α)

theorem fillSlots_map (f : α → β) : ∀ (a : List Slot) (parts : List (List α)),
    fillSlots (f ∘ sign) a (parts.map (List.map f)) =
      ((fillSlots sign a parts).1.map f, (fillSlots sign a parts).2.map (List.map f))
  | [], _ => rfl
  | .sign s :: a, parts => by
    simp only [fillSlots, fillSlots_map f a parts, List.map_cons, Function.comp_apply]
  | .hole _ :: a, p :: parts => by
    simp only [List.map_cons, fillSlots, fillSlots_map f a parts, List.map_append]
  | .hole _ :: a, [] => by
    simp only [List.map_nil, fillSlots]
    exact fillSlots_map f a []

theorem mem_fillSlots {v : α} : ∀ (a : List Slot) (parts : List (List α)),
    v ∈ (fillSlots sign a parts).1 ++ (fillSlots sign a parts).2.flatten →
      (∃ s, Slot.sign s ∈ a ∧ v = sign s) ∨ ∃ p ∈ parts, v ∈ p
  | [], parts, h => by
    simp only [fillSlots, List.nil_append, List.mem_flatten] at h
    exact .inr h
  | .sign s :: a, parts, h => by
    simp only [fillSlots, List.cons_append, List.mem_cons] at h
    rcases h with rfl | h
    · exact .inl ⟨s, List.mem_cons_self, rfl⟩
    · rcases mem_fillSlots a parts h with ⟨s', hs', rfl⟩ | hp
      · exact .inl ⟨s', List.mem_cons_of_mem _ hs', rfl⟩
      · exact .inr hp
  | .hole _ :: a, p :: parts, h => by
    simp only [fillSlots, List.append_assoc, List.mem_append] at h
    rcases h with h | h
    · exact .inr ⟨p, List.mem_cons_self, h⟩
    · rcases mem_fillSlots a parts (List.mem_append.mpr h) with ⟨s', hs', rfl⟩ | ⟨p', hp', hv⟩
      · exact .inl ⟨s', List.mem_cons_of_mem _ hs', rfl⟩
      · exact .inr ⟨p', List.mem_cons_of_mem _ hp', hv⟩
  | .hole _ :: a, [], h => by
    simp only [fillSlots] at h
    rcases mem_fillSlots a [] h with ⟨s', hs', rfl⟩ | ⟨p', hp', _⟩
    · exact .inl ⟨s', List.mem_cons_of_mem _ hs', rfl⟩
    · cases hp'

end Layout

namespace Entry

variable {ι α β : Type} (e : Entry ι) (sign : String → α)

theorem layout_map (f : α → β) (parts : List (List α)) :
    e.layout (f ∘ sign) (parts.map (List.map f)) = (e.layout sign parts).map f := by
  rw [layout_eq, layout_eq, fillSlots_map]
  simp [List.map_flatten]

variable {e sign}

theorem mem_layout {v : α} {parts : List (List α)} (h : v ∈ e.layout sign parts) :
    (∃ s, Slot.sign s ∈ e.operator.pattern ∧ v = sign s) ∨ ∃ p ∈ parts, v ∈ p := by
  rw [layout_eq] at h
  rcases mem_fillSlots sign e.slots parts h with ⟨s, hs, rfl⟩ | hp
  · rw [slots_eq, List.mem_append] at hs
    rcases hs with hs | hs
    · cases (List.mem_replicate.mp hs).2
    · exact .inl ⟨s, hs, rfl⟩
  · exact .inr hp

end Entry

@[simp]
theorem Literal.source_value (lit : Literal) : lit.value.source = lit.source := by
  cases lit <;> rfl

namespace Tree

variable {ι : Type} [DecidableEq ι] {t : Table ι}

mutual

theorem tokens_eq_of_fits : ∀ {tree : Tree ι}, tree.Fits t →
    tree.tokens t = .ok ((tree.yield t).map TokenValue.source)
  | .leaf lit, _ => by simp [tokens, yield]
  | .node id args, ⟨⟨e, he, hlen⟩, hall⟩ => by
    have hsign : (TokenValue.source ∘ TokenValue.sign) = fun s => s := rfl
    rw [tokens, yield, he]
    simp only [hlen, ne_eq, not_true_eq_false, if_false, partTokens_eq_of_allFit hall]
    rw [← Entry.layout_map, hsign]
    rfl

theorem partTokens_eq_of_allFit : ∀ {as : List (Tree ι)}, AllFit t as →
    partTokens t as = .ok ((yields t as).map (List.map TokenValue.source))
  | [], _ => rfl
  | b :: bs, ⟨hb, hbs⟩ => by
    simp only [partTokens, tokens_eq_of_fits hb, partTokens_eq_of_allFit hbs]
    rfl

end

theorem render_eq_of_fits {tree : Tree ι} (h : tree.Fits t) :
    tree.render t = .ok (" ".intercalate ((tree.yield t).map TokenValue.source)) := by
  rw [render, tokens_eq_of_fits h]
  rfl

end Tree

namespace Tree.Placed

variable {ι : Type} [DecidableEq ι] {t : Table ι} {leafOk : Literal → Prop} {opOk : ι → Prop}
  {tree : Tree ι}

theorem fits (h : tree.Placed t leafOk opOk) : tree.Fits t := by
  induction h with
  | leaf => trivial
  | node hfind _ hlen _ _ ih =>
    refine ⟨⟨_, hfind, hlen⟩, allFit_iff.mpr fun a ha => ?_⟩
    obtain ⟨i, hi⟩ := List.mem_iff_getElem?.mp ha
    exact ih i a hi

theorem yield_forall {P : TokenValue → Prop} (h : tree.Placed t leafOk opOk)
    (hleaf : ∀ lit, leafOk lit → P lit.value)
    (hsign : ∀ id e s, opOk id → t.find? id = some e → Slot.sign s ∈ e.operator.pattern →
      P (.sign s)) :
    ∀ v ∈ tree.yield t, P v := by
  induction h with
  | leaf hl =>
    intro v hv
    rw [yield, List.mem_singleton] at hv
    exact hv ▸ hleaf _ hl
  | node hfind hop _ _ _ ih =>
    intro v hv
    rw [yield, hfind, yields_eq_map] at hv
    rcases Entry.mem_layout hv with ⟨s, hs, rfl⟩ | ⟨p, hp, hvp⟩
    · exact hsign _ _ s hop hfind hs
    · obtain ⟨a, ha, rfl⟩ := List.mem_map.mp hp
      obtain ⟨i, hi⟩ := List.mem_iff_getElem?.mp ha
      exact ih i a hi v hvp

end Tree.Placed

theorem validSign_word {s : String} (h : validSign s = true) :
    s.toList ≠ [] ∧ ∀ c ∈ s.toList, Text.isBlank c = false := by
  refine ⟨toList_ne_nil_of_validSign h, ?_⟩
  simp only [validSign, Bool.and_eq_true, Bool.not_eq_true', String.any,
    String.contains_bool_eq, List.any_eq_false] at h
  intro c hc
  simpa using h.2 c hc

namespace TokenValue

variable {signs : List String}

theorem rescannable_sign {s : String} (hmem : s ∈ signs)
    (hword : s.toList ≠ [] ∧ ∀ c ∈ s.toList, Text.isBlank c = false)
    (hcut : ∀ a ∈ signs.takeWhile (· ≠ s), ¬ a.toList <:+: s.toList) :
    (TokenValue.sign s).Rescannable signs := by
  refine ⟨hword.1, hword.2, signs.takeWhile (· ≠ s), (signs.dropWhile (· ≠ s)).tail, ?_, hcut⟩
  obtain ⟨x, rest, hdrop⟩ : ∃ x rest, signs.dropWhile (· ≠ s) = x :: rest := by
    cases h : signs.dropWhile (· ≠ s) with
    | nil =>
      have := List.dropWhile_eq_nil_iff.mp h s hmem
      simp at this
    | cons x rest => exact ⟨x, rest, rfl⟩
  have hx : x = s := by
    have := List.head?_dropWhile_not (fun x => decide (x ≠ s)) signs
    rw [hdrop] at this
    simpa using this
  have hsplit := List.takeWhile_append_dropWhile (p := fun x => decide (x ≠ s)) (l := signs)
  rw [hdrop, hx] at hsplit
  rw [hdrop, List.tail_cons, hsplit]

theorem joinsExponent_eq_false (hpt : "." ∈ signs) {a : TokenValue} (ha : a.Rescannable signs)
    (b c : TokenValue) : joinsExponent a b c = false := by
  unfold joinsExponent
  split
  · rename_i n s x
    obtain ⟨-, -, hno, -, hhead⟩ := ha
    have hm : Numeral.isMarkedMantissa n = false := by
      rw [Bool.eq_false_iff]
      intro hm
      obtain ⟨c, rest, hcs, hc⟩ := Numeral.isMarkedMantissa_head hm ""
      rw [String.append_empty] at hcs
      rcases hc with rfl | hc
      · exact hno "." hpt (by simpa [hcs] using (List.prefix_append ['.'] rest).isInfix)
      · simp [hcs, hc] at hhead
    simp [hm]
  · rfl

theorem hasExponentJoin_eq_false (hpt : "." ∈ signs) :
    ∀ {vs : List TokenValue}, (∀ v ∈ vs, v.Rescannable signs) → hasExponentJoin vs = false
  | a :: b :: c :: rest, hv => by
    rw [hasExponentJoin, joinsExponent_eq_false hpt (hv a List.mem_cons_self),
      hasExponentJoin_eq_false hpt (fun v h => hv v (List.mem_cons_of_mem _ h))]
    rfl
  | [], _ | [_], _ | [_, _], _ => rfl

end TokenValue

namespace Calculator

open Op

/-- A leaf whose printed form scans back alone as itself with the standard signs: a finite number
with its sign bit clear, or a name that the standard signs scan as that one name. -/
def ScansBack : Literal → Prop
  | .number x => Decimal.isFinite x = true ∧ x.toBits.toNat < 2 ^ 63
  | .ident n => (Token.scan standard.signs n).map (List.map (·.value)) = .ok [.ident n]

theorem standard_signs_plain :
    ∀ s ∈ standard.signs, s.toList ≠ [] ∧ ∀ c ∈ s.toList, c.isDigit = false ∧ c ≠ 'e' := by
  rw [standard_eq]
  simp [derivedStandard]

theorem point_mem_standard_signs : "." ∈ standard.signs := by
  rw [standard_eq]
  simp [derivedStandard]

theorem standard_sign_rescannable {id : Op} (hid : id ∉ [le, ge, update]) {e : Entry Op}
    (he : standard.find? id = some e) {s : String} (hs : Slot.sign s ∈ e.operator.pattern) :
    (TokenValue.sign s).Rescannable standard.signs := by
  have hcheck : ∀ e ∈ derivedStandard.entries, e.operator.id ∉ [le, ge, update] →
      ∀ s ∈ e.operator.pattern.filterMap Slot.sign?, s ∈ derivedStandard.signs ∧
        ∀ a ∈ derivedStandard.signs.takeWhile (· ≠ s), ¬ a.toList <:+: s.toList := by
    decide +kernel
  obtain ⟨hmem, rfl⟩ := Table.find?_eq_some he
  rw [standard_eq] at hmem
  obtain ⟨hsign, hcut⟩ := hcheck e hmem hid s (List.mem_filterMap.mpr ⟨_, hs, rfl⟩)
  have hword := validSign_word (Table.ofLevels_validSign ofLevels_standardLevels s hsign)
  rw [standard_eq]
  exact TokenValue.rescannable_sign hsign hword hcut

theorem ScansBack.rescannable {lit : Literal} (h : ScansBack lit) :
    lit.value.Rescannable standard.signs := by
  cases lit with
  | number x => exact Decimal.isPlain_of_toBits_lt h.2 h.1
  | ident n =>
    obtain ⟨ts, hts, hvals⟩ := Except.map_eq_ok_inv h
    have hne : ∀ s ∈ standard.signs, s.toList ≠ [] := fun s hs => (standard_signs_plain s hs).1
    have hlen : ts.length = 1 := by simpa using (congrArg List.length hvals).symm
    obtain ⟨tok, rfl⟩ := List.length_eq_one_iff.mp hlen
    have hv : tok.value = .ident n := by simpa using hvals.symm
    simpa [Literal.value, hv] using scan_rescannable hne hts tok List.mem_cons_self

/-- Every tree of the operators other than `le`, `ge` and `update`, whose leaves scan back alone
and whose arguments are placed where their parents leave them unbracketed, renders with the
standard table as text that parses back to the tree. -/
theorem render_parses_back {tree : Tree Op}
    (h : tree.Placed standard ScansBack (· ∉ [le, ge, update])) :
    ∃ r, tree.render standard = .ok r ∧ parseStandard r = .ok tree := by
  have hv : ∀ v ∈ tree.yield standard, v.Rescannable standard.signs :=
    h.yield_forall (fun _ hl => hl.rescannable) fun _ _ _ hid he hs =>
      standard_sign_rescannable hid he hs
  -- the rendering scans back to the yield, since no three printed tokens join into one number
  have hscan := (scan_intercalate_source standard_signs_plain hv).mpr
    (TokenValue.hasExponentJoin_eq_false point_mem_standard_signs hv)
  obtain ⟨ts, hts, hvals⟩ := Except.map_eq_ok_inv hscan
  refine ⟨_, Tree.render_eq_of_fits h.fits, Session.parse_eq_ok.mpr ⟨ts, hts, ?_⟩⟩
  exact Parser.parse_of_placed standard_fiveForms h (by simpa using hvals.symm)

theorem negated_difference_parses_back :
    let tree := Tree.node sub [.node neg [.leaf (.ident "x")], .leaf (.number 0.0005)]
    tree.Placed standard ScansBack (· ∉ [le, ge, update]) ∧
      tree.render standard = .ok "- x - 5e-4" ∧ parseStandard "- x - 5e-4" = .ok tree := by
  intro tree
  have hsub : standard.find? sub = some ⟨binary sub "-", 4, .left, 0, "-", 1, 2, some 4⟩ := by
    rw [standard_eq]
    rfl
  have hneg : standard.find? neg =
      some ⟨⟨neg, .chain, [.sign "-"]⟩, 2, .right, 0, "-", 1, 1, some 3⟩ := by
    rw [standard_eq]
    rfl
  have hx : ScansBack (.ident "x") := by
    have hrun : (Token.scan standard.signs "x").toOption.map (List.map Token.ident?) =
        some [some "x"] := by
      rw [standard_eq]
      decide +kernel
    show (Token.scan standard.signs "x").map (List.map (·.value)) = .ok [.ident "x"]
    cases hs : Token.scan standard.signs "x" with
    | error e =>
      rw [hs] at hrun
      cases hrun
    | ok ts =>
      rw [hs] at hrun
      simp only [Except.toOption, Option.map_some, Option.some.injEq] at hrun
      rcases ts with _ | ⟨⟨v, sp⟩, _ | ⟨_, _⟩⟩ <;> simp at hrun
      cases v <;> simp [Token.ident?] at hrun
      subst hrun
      rfl
  have hnum : ScansBack (.number 0.0005) := ⟨by decide +kernel, by decide +kernel⟩
  have hplaced : tree.Placed standard ScansBack (· ∉ [le, ge, update]) := by
    refine .node hsub (by decide) rfl ?_ ?_
    · intro i a hi
      rcases i with _ | _ | i <;> simp at hi <;> subst hi
      · intro child hc
        rw [hneg] at hc
        cases hc
        simp [Entry.startsWithExpression, Tree.reach, Tree.reachLast, hneg, binary]
      · trivial
    · intro i a hi
      rcases i with _ | _ | i <;> simp at hi <;> subst hi
      · refine .node hneg (by decide) rfl ?_ ?_
        · intro i a hi
          rcases i with _ | i <;> simp at hi
          subst hi
          trivial
        · intro i a hi
          rcases i with _ | i <;> simp at hi
          subst hi
          exact .leaf hx
      · exact .leaf hnum
  obtain ⟨r, hr, hparse⟩ := render_parses_back hplaced
  have htext : (tree.render standard).toOption = some "- x - 5e-4" := by
    rw [standard_eq]
    decide +kernel
  rw [hr] at htext
  cases htext
  exact ⟨hplaced, hr, hparse⟩

end Calculator

end Mixfix
