import Mathlib
import Mixfix.Proofs.Token.Spans
import Mixfix.Proofs.Decimal.Printing

namespace Mixfix

section Split

variable {sep : List Char} (h : sep ≠ [])

theorem splitNonempty_of_not_infix : ∀ {cs : List Char}, ¬ sep <:+: cs → splitNonempty sep h cs = [cs]
  | [], _ => by rw [splitNonempty]
  | c :: cs, hn => by
    have hpre : sep.isPrefixOf (c :: cs) = false := by
      rw [Bool.eq_false_iff]
      intro hp
      exact hn (List.isPrefixOf_iff_prefix.mp hp).isInfix
    rw [splitNonempty, if_neg (by simp [hpre]),
      splitNonempty_of_not_infix fun hi => hn (hi.trans (List.suffix_cons c cs).isInfix)]

theorem splitNonempty_self : splitNonempty sep h sep = [[], []] := by
  obtain ⟨c, cs, rfl⟩ := List.ne_nil_iff_exists_cons.mp h
  rw [splitNonempty, if_pos (List.isPrefixOf_iff_prefix.mpr (List.prefix_refl _)), List.drop_length,
    splitNonempty]

theorem splitNonempty_single {c : Char} {b : List Char} (hb : c ∉ b) :
    ∀ {a : List Char}, c ∉ a → splitNonempty [c] (List.cons_ne_nil c []) (a ++ c :: b) = [a, b]
  | [], _ => by
    rw [List.nil_append, splitNonempty, if_pos (by simp), List.length_singleton, List.drop_one,
      List.tail_cons, splitNonempty_of_not_infix _ fun hi => hb (hi.mem (List.mem_singleton_self c))]
  | x :: a, ha => by
    have hx : x ≠ c := fun hx => ha (hx ▸ List.mem_cons_self)
    rw [List.cons_append, splitNonempty, if_neg (by simp [Ne.symm hx]),
      splitNonempty_single hb fun hc => ha (List.mem_cons_of_mem x hc)]

theorem not_infix_of_mem_splitNonempty {cs : List Char} :
    ∀ q ∈ splitNonempty sep h cs, ¬ sep <:+: q := by
  fun_induction splitNonempty sep h cs with
  | case1 =>
    intro q hq hi
    rw [List.mem_singleton.mp hq, List.infix_nil] at hi
    exact h hi
  | case2 c cs hpre ih =>
    intro q hq
    rcases List.mem_cons.mp hq with rfl | hq
    · intro hi
      exact h (List.infix_nil.mp hi)
    · exact ih q hq
  | case3 c cs hpre first rest heq ih =>
    intro q hq
    rcases List.mem_cons.mp hq with rfl | hq
    · -- an occurrence at the start of the first part would have been found before it
      intro hi
      rcases List.infix_cons_iff.mp hi with hp | hi
      · obtain ⟨first', rest', heq', hcs⟩ := Piece.splitNonempty_spec sep h cs
        rw [heq] at heq'
        obtain ⟨rfl, rfl⟩ := List.cons.inj heq'
        have hfirst : c :: first <+: c :: cs := by
          rw [hcs, ← List.cons_append]
          exact List.prefix_append _ _
        exact hpre (List.isPrefixOf_iff_prefix.mpr (hp.trans hfirst))
      · exact ih first (by rw [heq]; exact List.mem_cons_self) hi
    · exact ih q (by rw [heq]; exact List.mem_cons_of_mem _ hq)
  | case4 c cs hpre heq ih =>
    obtain ⟨first, rest, heq', -⟩ := Piece.splitNonempty_spec sep h cs
    rw [heq] at heq'
    cases heq'

end Split

theorem infix_of_mem_splitOn {sep cs part : List Char} (h : part ∈ splitOn sep cs) :
    part <:+: cs := by
  obtain ⟨first, rest, heq, hcs⟩ := Piece.splitOn_spec sep cs
  rw [heq] at h
  rw [hcs]
  rcases List.mem_cons.mp h with rfl | h
  · exact (List.prefix_append _ _).isInfix
  · have hin : sep ++ part <:+: rest.flatMap (sep ++ ·) :=
      List.infix_of_mem_flatten (List.mem_map.mpr ⟨part, h, rfl⟩)
    exact ((List.suffix_append _ _).isInfix.trans hin).trans (List.suffix_append _ _).isInfix

theorem not_infix_of_mem_splitOn {sep cs part : List Char} (hs : sep ≠ []) (h : part ∈ splitOn sep cs) :
    ¬ sep <:+: part := by
  rw [splitOn, dif_neg hs] at h
  exact not_infix_of_mem_splitNonempty hs part h

namespace Piece

theorem residueAt_of_ne_nil (q : Position) {cs : List Char} (h : cs ≠ []) :
    residueAt q cs = [.residue (String.ofList cs) ⟨q, q.shift cs.length⟩] := by
  simp [residueAt, h]

theorem cut_of_not_infix {sign w : String} (hs : sign.toList ≠ []) (hw : w.toList ≠ [])
    (hn : ¬ sign.toList <:+: w.toList) (sp : Span) :
    ∃ sp', (Piece.residue w sp).cut sign = [.residue w sp'] := by
  rw [Piece.cut, splitOn, dif_neg hs, splitNonempty_of_not_infix hs hn]
  dsimp only
  rw [residueAt_of_ne_nil _ hw, String.ofList_toList]
  exact ⟨_, rfl⟩

theorem cut_self {s : String} (hs : s.toList ≠ []) (sp : Span) :
    ∃ sp', (Piece.residue s sp).cut s = [.sign s sp'] := by
  rw [Piece.cut, splitOn, dif_neg hs, splitNonempty_self hs]
  exact ⟨_, rfl⟩

theorem cut_minus {a b : List Char} (ha : '-' ∉ a) (hb : '-' ∉ b) (ha₀ : a ≠ []) (hb₀ : b ≠ [])
    (sp : Span) : ∃ sp₁ sp₂ sp₃, (Piece.residue (String.ofList (a ++ '-' :: b)) sp).cut "-" =
      [.residue (String.ofList a) sp₁, .sign "-" sp₂, .residue (String.ofList b) sp₃] := by
  have hsplit : splitOn "-".toList (a ++ '-' :: b) = [a, b] := by
    rw [splitOn, dif_neg (by decide)]
    exact splitNonempty_single hb ha
  simp only [Piece.cut, String.toList_ofList]
  rw [hsplit]
  dsimp only
  rw [residueAt_of_ne_nil _ ha₀, placeAfterSigns, residueAt_of_ne_nil _ hb₀, placeAfterSigns]
  exact ⟨_, _, _, rfl⟩

end Piece

theorem cutAll_cons (sign : String) (signs : List String) (ps : List Piece) :
    cutAll (sign :: signs) ps = cutAll signs (ps.flatMap (Piece.cut sign)) := rfl

theorem cutAll_append (A B : List String) (ps : List Piece) :
    cutAll (A ++ B) ps = cutAll B (cutAll A ps) := by
  simp only [cutAll, List.foldl_append]

theorem cutAll_eq_flatMap (signs : List String) (ps : List Piece) :
    cutAll signs ps = ps.flatMap fun p => cutAll signs [p] := by
  induction signs generalizing ps with
  | nil => simp [cutAll]
  | cons sign signs ih =>
    rw [cutAll_cons, ih, List.flatMap_assoc]
    congr 1
    funext p
    rw [cutAll_cons, ih, List.flatMap_singleton]

theorem cutAll_sign (signs : List String) (s : String) (sp : Span) :
    cutAll signs [.sign s sp] = [.sign s sp] := by
  induction signs with
  | nil => rfl
  | cons sign signs ih => rw [cutAll_cons, List.flatMap_singleton, Piece.cut, ih]

theorem cutAll_residue {w : String} (hw : w.toList ≠ []) :
    ∀ {signs : List String}, (∀ a ∈ signs, a.toList ≠ [] ∧ ¬ a.toList <:+: w.toList) →
      ∀ sp, ∃ sp', cutAll signs [.residue w sp] = [.residue w sp']
  | [], _, sp => ⟨sp, rfl⟩
  | sign :: signs, h, sp => by
    obtain ⟨hs, hn⟩ := h sign List.mem_cons_self
    obtain ⟨sp₁, hcut⟩ := Piece.cut_of_not_infix hs hw hn sp
    rw [cutAll_cons, List.flatMap_singleton, hcut]
    exact cutAll_residue hw (fun a ha => h a (List.mem_cons_of_mem _ ha)) sp₁

theorem cutAll_residue_sign {s : String} (hs : s.toList ≠ []) {A B : List String}
    (hA : ∀ a ∈ A, a.toList ≠ [] ∧ ¬ a.toList <:+: s.toList) (sp : Span) :
    ∃ sp', cutAll (A ++ s :: B) [.residue s sp] = [.sign s sp'] := by
  obtain ⟨sp₁, h₁⟩ := cutAll_residue hs hA sp
  obtain ⟨sp₂, h₂⟩ := Piece.cut_self hs sp₁
  refine ⟨sp₂, ?_⟩
  rw [cutAll_append, h₁, cutAll_cons, List.flatMap_singleton, h₂, cutAll_sign]

namespace Piece

/-- What cutting by the signs `done`, in order, leaves of a piece: a nonempty run of characters
without blanks, a sign holding none of the signs cut before it and a residue none of them. -/
def Kept (done : List String) : Piece → Prop
  | .sign s _ => s.toList ≠ [] ∧ (∀ c ∈ s.toList, Text.isBlank c = false) ∧
      ∃ A B, done = A ++ s :: B ∧ ∀ a ∈ A, ¬ a.toList <:+: s.toList
  | .residue w _ => w.toList ≠ [] ∧ (∀ c ∈ w.toList, Text.isBlank c = false) ∧
      ∀ a ∈ done, ¬ a.toList <:+: w.toList

theorem kept_residueAt {done : List String} {q : Position} {cs : List Char}
    (hb : ∀ c ∈ cs, Text.isBlank c = false) (hn : ∀ a ∈ done, ¬ a.toList <:+: cs) :
    ∀ p ∈ residueAt q cs, Kept done p := by
  intro p hp
  unfold residueAt at hp
  split_ifs at hp with hnil
  · cases hp
  · rw [List.mem_singleton.mp hp]
    simp only [Kept, String.toList_ofList]
    exact ⟨fun h => hnil (List.isEmpty_iff.mpr h), hb, hn⟩

theorem kept_blankSplit : ∀ (start pos : Position) (word cs : List Char),
    (∀ c ∈ word, Text.isBlank c = false) → ∀ p ∈ blankSplit start pos word cs, Kept [] p
  | start, pos, word, [], hword => by
    rw [blankSplit]
    exact kept_residueAt (by simpa using hword) (by simp)
  | start, pos, word, c :: cs, hword => by
    rw [blankSplit]
    by_cases hc : Text.isBlank c = true
    · rw [if_pos hc]
      intro p hp
      rcases List.mem_append.mp hp with hp | hp
      · exact kept_residueAt (by simpa using hword) (by simp) p hp
      · exact kept_blankSplit _ _ [] cs (by simp) p hp
    · rw [if_neg hc]
      refine kept_blankSplit _ _ (c :: word) cs ?_
      intro x hx
      rcases List.mem_cons.mp hx with rfl | hx
      · simpa using hc
      · exact hword x hx

theorem kept_words (source : String) : ∀ p ∈ words source, Kept [] p :=
  kept_blankSplit _ _ [] _ (by simp)

theorem mem_placeAfterSigns {sign : String} :
    ∀ {pos : Position} {parts : List (List Char)} {p : Piece}, p ∈ placeAfterSigns sign pos parts →
      parts ≠ [] ∧ ((∃ sp, p = .sign sign sp) ∨ ∃ q ∈ parts, ∃ pos', p ∈ residueAt pos' q)
  | pos, [], p, hp => by cases hp
  | pos, q :: parts, p, hp => by
    refine ⟨List.cons_ne_nil _ _, ?_⟩
    rw [placeAfterSigns] at hp
    rcases List.mem_cons.mp hp with rfl | hp
    · exact .inl ⟨_, rfl⟩
    rcases List.mem_append.mp hp with hp | hp
    · exact .inr ⟨q, List.mem_cons_self, _, hp⟩
    · rcases (mem_placeAfterSigns hp).2 with h | ⟨q', hq', pos', hp'⟩
      · exact .inl h
      · exact .inr ⟨q', List.mem_cons_of_mem _ hq', pos', hp'⟩

theorem mem_residueAt {q : Position} {cs : List Char} {y : Piece} (h : y ∈ residueAt q cs) :
    cs ≠ [] ∧ y = .residue (String.ofList cs) ⟨q, q.shift cs.length⟩ := by
  unfold residueAt at h
  split_ifs at h with hnil
  · cases h
  · exact ⟨fun he => hnil (List.isEmpty_iff.mpr he), List.mem_singleton.mp h⟩

theorem mem_cut {sign w : String} {span : Span} {y : Piece} (h : y ∈ (residue w span).cut sign) :
    (sign.toList <:+: w.toList ∧ ∃ sp, y = .sign sign sp) ∨
      ∃ part ∈ splitOn sign.toList w.toList, part ≠ [] ∧ ∃ sp, y = .residue (String.ofList part) sp := by
  obtain ⟨first, rest, heq, hw⟩ := splitOn_spec sign.toList w.toList
  have hpart : ∀ part ∈ first :: rest, ∀ pos, y ∈ residueAt pos part →
      ∃ part ∈ splitOn sign.toList w.toList, part ≠ [] ∧
        ∃ sp, y = .residue (String.ofList part) sp := by
    intro part hmem pos hy
    obtain ⟨hne, rfl⟩ := mem_residueAt hy
    exact ⟨part, heq ▸ hmem, hne, _, rfl⟩
  unfold Piece.cut at h
  dsimp only at h
  rw [heq] at h
  rcases List.mem_append.mp h with h | h
  · exact .inr (hpart first List.mem_cons_self _ h)
  · obtain ⟨hne, hs | ⟨part, hmem, pos, hy⟩⟩ := mem_placeAfterSigns h
    · obtain ⟨q, rest', rfl⟩ := List.ne_nil_iff_exists_cons.mp hne
      exact .inl ⟨⟨first, q ++ rest'.flatMap (sign.toList ++ ·), by rw [hw]; simp⟩, hs⟩
    · exact .inr (hpart part (List.mem_cons_of_mem _ hmem) pos hy)

theorem kept_cut {done : List String} {sign : String} (hs : sign.toList ≠ []) :
    ∀ {p : Piece}, Kept done p → ∀ q ∈ p.cut sign, Kept (done ++ [sign]) q
  | .sign s sp, ⟨hs₀, hsb, A, B, hAB, hA⟩, q, hq => by
    obtain rfl := List.mem_singleton.mp hq
    exact ⟨hs₀, hsb, A, B ++ [sign], by rw [hAB]; simp, hA⟩
  | .residue w sp, ⟨_, hwb, hwn⟩, q, hq => by
    rcases mem_cut hq with ⟨hsw, sp', rfl⟩ | ⟨part, hmem, hne, sp', rfl⟩
    · exact ⟨hs, fun c hc => hwb c (hsw.mem hc), done, [], rfl,
        fun a ha hi => hwn a ha (hi.trans hsw)⟩
    · have hin := infix_of_mem_splitOn hmem
      simp only [Kept, String.toList_ofList]
      refine ⟨hne, fun c hc => hwb c (hin.mem hc), fun a ha hi => ?_⟩
      rcases List.mem_append.mp ha with ha | ha
      · exact hwn a ha (hi.trans hin)
      · rw [List.mem_singleton.mp ha] at hi
        exact not_infix_of_mem_splitOn hs hmem hi

theorem kept_cutAll : ∀ {signs done : List String} {ps : List Piece},
    (∀ s ∈ signs, s.toList ≠ []) → (∀ p ∈ ps, Kept done p) →
      ∀ p ∈ cutAll signs ps, Kept (done ++ signs) p
  | [], done, ps, _, h => by simpa [cutAll] using h
  | s₀ :: signs, done, ps, hs, h => by
    rw [cutAll_cons, show done ++ s₀ :: signs = (done ++ [s₀]) ++ signs by simp]
    refine kept_cutAll (fun s hs' => hs s (List.mem_cons_of_mem _ hs')) ?_
    intro q hq
    obtain ⟨p, hp, hq⟩ := List.mem_flatMap.mp hq
    exact kept_cut (hs s₀ List.mem_cons_self) (h p hp) q hq

end Piece

namespace Numeral

theorem isMantissa_head {cs : List Char} (h : isMantissa cs = true) :
    ∃ c rest, cs = c :: rest ∧ (c = '.' ∨ c.isDigit = true) := by
  rcases cs with _ | ⟨c, rest⟩
  · cases h
  · exact ⟨c, rest, rfl, (isMantissa_chars h c List.mem_cons_self).symm⟩

theorem isNumber_head {s : String} (h : isNumber s = true) :
    ∃ c rest, s.toList = c :: rest ∧ (c = '.' ∨ c.isDigit = true) := by
  unfold isNumber at h
  simp only [Bool.and_eq_true] at h
  obtain ⟨c, rest, hcs, hc⟩ := isMantissa_head h.1
  obtain ⟨rest', hs⟩ : ∃ rest', s.toList = c :: rest' := by
    have := List.takeWhile_append_dropWhile (p := fun c => c ≠ 'e' && c ≠ 'E') (l := s.toList)
    rw [hcs] at this
    exact ⟨_, this.symm⟩
  exact ⟨c, rest', hs, hc⟩

theorem isMarkedMantissa_head {m : String} (h : isMarkedMantissa m = true) (t : String) :
    ∃ c rest, (m ++ t).toList = c :: rest ∧ (c = '.' ∨ c.isDigit = true) := by
  unfold isMarkedMantissa at h
  rcases hr : m.toList.reverse with _ | ⟨x, rest⟩ <;> rw [hr] at h
  · cases h
  simp only [Bool.and_eq_true] at h
  obtain ⟨c, rest', hcs, hc⟩ := isMantissa_head h.2
  refine ⟨c, rest' ++ x :: t.toList, ?_, hc⟩
  rw [String.toList_append, ← List.reverse_reverse m.toList, hr, List.reverse_cons, hcs]
  simp

end Numeral

/-- What assembling tells of a token made from the pieces `ps`: a sign is one of their signs; a
name is one of their residues, neither a number nor beginning with a digit; a number is a plain
double. -/
def Token.Made (ps : List Piece) (t : Token) : Prop :=
  match t.value with
  | .sign s => ∃ sp, Piece.sign s sp ∈ ps
  | .ident n => (∃ sp, Piece.residue n sp ∈ ps) ∧ Numeral.isNumber n = false ∧
      (n.toList.head?.map Char.isDigit).getD false = false
  | .number x => Decimal.isPlain x = true

theorem Token.Made.mono {ps qs : List Piece} (h : ps ⊆ qs) {t : Token} (ht : t.Made ps) :
    t.Made qs := by
  unfold Token.Made at ht ⊢
  split at ht
  · obtain ⟨sp, hsp⟩ := ht
    exact ⟨sp, h hsp⟩
  · obtain ⟨⟨sp, hsp⟩, hn⟩ := ht
    exact ⟨⟨sp, h hsp⟩, hn⟩
  · exact ht

theorem isPlain_of_finiteValue {text : String} {x : Float} (h : finiteValue? text = some x)
    (hhead : ∃ c rest, text.toList = c :: rest ∧ (c = '.' ∨ c.isDigit = true)) :
    Decimal.isPlain x = true := by
  obtain ⟨c, rest, hcs, hc⟩ := hhead
  obtain ⟨hread, hfin⟩ := Option.filter_eq_some_iff.mp h
  rw [← String.ofList_toList (s := text), hcs] at hread
  exact Decimal.isPlain_of_read? hc hread hfin

theorem classify_made {text : String} {sp : Span} {index : Nat} {t : Token}
    (h : classify text sp index = .ok t) : t.Made [.residue text sp] := by
  unfold classify at h
  split at h
  · rename_i x hx
    cases h
    split_ifs at hx with hn
    exact isPlain_of_finiteValue hx (Numeral.isNumber_head hn)
  · split_ifs at h with hd
    cases h
    simp only [Bool.or_eq_true, not_or, Bool.not_eq_true] at hd
    exact ⟨⟨sp, List.mem_singleton_self _⟩, hd.2, hd.1⟩

theorem Piece.token_made {p : Piece} {index : Nat} {t : Token} (h : p.token index = .ok t) :
    t.Made [p] := by
  cases p with
  | sign s sp =>
    cases h
    exact ⟨sp, List.mem_singleton_self _⟩
  | residue text sp => exact classify_made h

theorem Token.made_cons {ps rest : List Piece} {t : Token} {ts : List Token} (ht : t.Made ps)
    (hts : ∀ t ∈ ts, t.Made rest) : ∀ t' ∈ t :: ts, t'.Made (ps ++ rest) := by
  intro t' ht'
  rcases List.mem_cons.mp ht' with rfl | ht'
  · exact ht.mono (List.subset_append_left _ _)
  · exact (hts t' ht').mono (List.subset_append_right _ _)

theorem assemble_made {index : Nat} {ps : List Piece} {ts : List Token}
    (h : assemble index ps = .ok ts) : ∀ t ∈ ts, t.Made ps := by
  fun_induction assemble index ps generalizing ts with
  | case1 =>
    cases h
    simp
  | case2 index p₁ p₂ p₃ rest t hj ih =>
    obtain ⟨ts', hts', rfl⟩ := Except.map_eq_ok_inv h
    obtain ⟨m, ms, s, ss, e, es, x, -, -, -, hm, -, -, hx, rfl⟩ := joinExponent_eq_some hj
    have hmade : Token.Made [p₁, p₂, p₃] ⟨.number x, ms.merge es⟩ := isPlain_of_finiteValue hx
      (by rw [String.append_assoc]; exact Numeral.isMarkedMantissa_head hm _)
    exact Token.made_cons hmade (ih hts')
  | case3 index p₁ p₂ p₃ rest hj ih =>
    obtain ⟨t, ht, h'⟩ := Except.bind_eq_ok_inv h
    obtain ⟨ts', hts', rfl⟩ := Except.map_eq_ok_inv h'
    exact Token.made_cons (Piece.token_made ht) (ih hts')
  | case4 index x rest hshape ih =>
    obtain ⟨t, ht, h'⟩ := Except.bind_eq_ok_inv h
    obtain ⟨ts', hts', rfl⟩ := Except.map_eq_ok_inv h'
    exact Token.made_cons (Piece.token_made ht) (ih hts')

/-- What a token of a scan by `signs` is, to be scanned again alone: a sign is a nonempty run
without blanks in which no sign cut before it occurs; a name is one in which no sign occurs, and
is neither a number nor begins with a digit; a number is a plain double. -/
def TokenValue.Rescannable (signs : List String) : TokenValue → Prop
  | .sign s => s.toList ≠ [] ∧ (∀ c ∈ s.toList, Text.isBlank c = false) ∧
      ∃ A B, signs = A ++ s :: B ∧ ∀ a ∈ A, ¬ a.toList <:+: s.toList
  | .ident n => n.toList ≠ [] ∧ (∀ c ∈ n.toList, Text.isBlank c = false) ∧
      (∀ a ∈ signs, ¬ a.toList <:+: n.toList) ∧ Numeral.isNumber n = false ∧
      (n.toList.head?.map Char.isDigit).getD false = false
  | .number x => Decimal.isPlain x = true

theorem scan_rescannable {signs : List String} (hs : ∀ s ∈ signs, s.toList ≠ [])
    {source : String} {ts : List Token} (h : Token.scan signs source = .ok ts) :
    ∀ t ∈ ts, t.value.Rescannable signs := by
  intro t ht
  have hkept := Piece.kept_cutAll hs (Piece.kept_words source)
  have hmade := assemble_made h t ht
  unfold Token.Made at hmade
  unfold TokenValue.Rescannable
  split at hmade
  · obtain ⟨sp, hsp⟩ := hmade
    exact hkept _ hsp
  · obtain ⟨⟨sp, hsp⟩, hnum, hhead⟩ := hmade
    obtain ⟨hne, hblank, hno⟩ := hkept _ hsp
    exact ⟨hne, hblank, hno, hnum, hhead⟩
  · exact hmade

end Mixfix
