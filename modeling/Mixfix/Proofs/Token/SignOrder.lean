import Mixfix.Proofs.Token.Cutting

namespace Mixfix

@[simp] theorem Position.shift_shift (q : Position) (a b : Nat) :
    (q.shift a).shift b = q.shift (a + b) := by
  simp [Position.shift, Nat.add_assoc]

@[simp] theorem Position.shift_zero (q : Position) : q.shift 0 = q := rfl

/-- Some nonempty end of `a` begins `b`, so an occurrence of `a` can run on into one of `b`. -/
def Straddles (a b : List Char) : Prop := ∃ x ∈ a.tails, x ≠ [] ∧ x <+: b

instance (a b : List Char) : Decidable (Straddles a b) :=
  inferInstanceAs (Decidable (∃ x ∈ a.tails, x ≠ [] ∧ x <+: b))

/-- No sign of the list occurs in another, and no end of one begins another. -/
def Separate (signs : List String) : Prop :=
  ∀ a ∈ signs, ∀ b ∈ signs, a ≠ b → ¬ a.toList <:+: b.toList ∧ ¬ Straddles a.toList b.toList

instance (signs : List String) : Decidable (Separate signs) :=
  inferInstanceAs (Decidable (∀ a ∈ signs, ∀ b ∈ signs, a ≠ b →
    ¬ a.toList <:+: b.toList ∧ ¬ Straddles a.toList b.toList))

/-- A word cut at signs: the characters before the first cut, then each sign cut out with the
characters that follow it up to the next cut. -/
structure Cutting where
  head : List Char
  cuts : List (String × List Char)

namespace Cutting

def consChar (c : Char) (k : Cutting) : Cutting := ⟨c :: k.head, k.cuts⟩

def consSign (s : String) (k : Cutting) : Cutting := ⟨[], (s, k.head) :: k.cuts⟩

def cutsText (cuts : List (String × List Char)) : List Char :=
  cuts.flatMap fun x => x.1.toList ++ x.2

def text (k : Cutting) : List Char := k.head ++ cutsText k.cuts

def opens (cs : List Char) (s : String) : Bool := !s.toList.isEmpty && s.toList.isPrefixOf cs

/-- Reads a word greedily: from each place on, the first of `signs` that begins there is cut out,
and if none does, the character is kept. -/
def greedy (signs : List String) : List Char → Cutting
  | [] => ⟨[], []⟩
  | c :: cs =>
    match _hfind : signs.find? (opens (c :: cs)) with
    | some s => consSign s (greedy signs ((c :: cs).drop s.length))
    | none => consChar c (greedy signs cs)
termination_by cs => cs.length
decreasing_by
  · have hs : s.toList ≠ [] := by
      have := List.find?_some _hfind
      simp only [opens, Bool.and_eq_true, Bool.not_eq_true', List.isEmpty_eq_false_iff] at this
      exact this.1
    have : 0 < s.length := by
      rw [← String.length_toList]
      exact List.length_pos_iff.mpr hs
    simp only [List.length_drop, List.length_cons]
    omega
  · simp

/-- The pieces of the cuts laid out from `pos`: each sign, then the residue after it if there is
one. -/
def layCuts : Position → List (String × List Char) → List Piece
  | _, [] => []
  | pos, (s, p) :: rest =>
    .sign s ⟨pos, pos.shift s.length⟩ :: Piece.residueAt (pos.shift s.length) p ++
      layCuts (pos.shift (s.length + p.length)) rest

def lay (q : Position) (k : Cutting) : List Piece :=
  Piece.residueAt q k.head ++ layCuts (q.shift k.head.length) k.cuts

def refine (s : String) (k : Cutting) : Cutting :=
  let first := greedy [s] k.head
  ⟨first.head, first.cuts ++ k.cuts.flatMap fun x =>
    let part := greedy [s] x.2
    (x.1, part.head) :: part.cuts⟩

theorem opens_iff {cs : List Char} {s : String} :
    opens cs s = true ↔ s.toList ≠ [] ∧ s.toList <+: cs := by
  simp [opens, List.isPrefixOf_iff_prefix]

variable {signs : List String}

@[simp] theorem greedy_nil : greedy signs [] = ⟨[], []⟩ := by
  rw [greedy]

theorem greedy_of_find_some {w : List Char} {s : String} (h : signs.find? (opens w) = some s) :
    greedy signs w = consSign s (greedy signs (w.drop s.length)) := by
  cases w with
  | nil =>
    obtain ⟨hs, hpre⟩ := opens_iff.mp (List.find?_some h)
    exact absurd (List.prefix_nil.mp hpre) hs
  | cons c cs =>
    rw [greedy]
    split <;> simp_all

theorem greedy_of_find_none {c : Char} {cs : List Char}
    (h : signs.find? (opens (c :: cs)) = none) :
    greedy signs (c :: cs) = consChar c (greedy signs cs) := by
  rw [greedy]
  split <;> simp_all

theorem greedy_text (w : List Char) : (greedy signs w).text = w := by
  fun_induction greedy signs w with
  | case1 => rfl
  | case2 c cs s h ih =>
    have hpre : s.toList <+: c :: cs := (opens_iff.mp (List.find?_some h)).2
    obtain ⟨rest, hrest⟩ := hpre
    have hdrop : (c :: cs).drop s.length = rest := by
      rw [← hrest, ← String.length_toList, List.drop_left]
    rw [hdrop] at ih ⊢
    simp only [text, consSign, cutsText, List.flatMap_cons, List.nil_append] at ih ⊢
    rw [List.append_assoc, ih, hrest]
  | case3 c cs h ih =>
    simp only [text, consChar, List.cons_append] at ih ⊢
    rw [ih]

theorem greedy_head_prefix (w : List Char) : (greedy signs w).head <+: w := by
  fun_induction greedy signs w with
  | case1 => exact List.nil_prefix
  | case2 => exact List.nil_prefix
  | case3 c cs h ih => exact List.cons_prefix_cons.mpr ⟨rfl, ih⟩

theorem greedy_append {r : List Char} :
    ∀ {x : List Char}, (∀ i < x.length, signs.find? (opens ((x ++ r).drop i)) = none) →
      greedy signs (x ++ r) = ⟨x ++ (greedy signs r).head, (greedy signs r).cuts⟩
  | [], _ => rfl
  | c :: x, hx => by
    have h₀ := hx 0 (Nat.succ_pos _)
    rw [List.drop_zero, List.cons_append] at h₀
    have hrest : ∀ i < x.length, signs.find? (opens ((x ++ r).drop i)) = none := fun i hi =>
      hx (i + 1) (Nat.succ_lt_succ hi)
    rw [List.cons_append, greedy_of_find_none h₀, greedy_append hrest]
    rfl

theorem greedy_singleton {s : String} (hs : s.toList ≠ []) {w : List Char} :
    ∀ {first : List Char} {rest : List (List Char)}, splitNonempty s.toList hs w = first :: rest →
      greedy [s] w = ⟨first, rest.map (s, ·)⟩ := by
  fun_induction splitNonempty s.toList hs w with
  | case1 =>
    intro first rest h
    obtain ⟨rfl, rfl⟩ := List.cons.inj h
    rw [greedy_nil]
    rfl
  | case2 c cs hpre ih =>
    intro first rest h
    obtain ⟨rfl, rfl⟩ := List.cons.inj h
    obtain ⟨first', rest', heq, -⟩ := Piece.splitNonempty_spec s.toList hs
      ((c :: cs).drop s.toList.length)
    have hfind : [s].find? (opens (c :: cs)) = some s := by
      simp [opens, hpre, hs]
    rw [greedy_of_find_some hfind, ← String.length_toList, ih heq, heq]
    rfl
  | case3 c cs hpre first' rest' heq ih =>
    intro first rest h
    obtain ⟨rfl, rfl⟩ := List.cons.inj h
    have hfind : [s].find? (opens (c :: cs)) = none := by
      simp [opens, hpre]
    rw [greedy_of_find_none hfind, ih heq]
    rfl
  | case4 c cs hpre heq ih =>
    obtain ⟨first', rest', heq', -⟩ := Piece.splitNonempty_spec s.toList hs cs
    rw [heq] at heq'
    cases heq'

theorem layCuts_map (s : String) :
    ∀ (pos : Position) (parts : List (List Char)),
      layCuts pos (parts.map (s, ·)) = placeAfterSigns s pos parts
  | _, [] => rfl
  | pos, p :: parts => by
    simp only [List.map_cons, layCuts, placeAfterSigns, layCuts_map s _ parts]

theorem layCuts_append (pos : Position) (c₁ c₂ : List (String × List Char)) :
    layCuts pos (c₁ ++ c₂) = layCuts pos c₁ ++ layCuts (pos.shift (cutsText c₁).length) c₂ := by
  induction c₁ generalizing pos with
  | nil => simp [layCuts, cutsText]
  | cons x c₁ ih =>
    obtain ⟨t, p⟩ := x
    simp [layCuts, ih, cutsText, Nat.add_assoc, String.length_toList]

theorem cut_residue {s : String} (hs : s.toList ≠ []) (w : String) (sp : Span) :
    (Piece.residue w sp).cut s = (greedy [s] w.toList).lay sp.start := by
  obtain ⟨first, rest, heq, -⟩ := Piece.splitNonempty_spec s.toList hs w.toList
  rw [Piece.cut, splitOn, dif_neg hs, heq, greedy_singleton hs heq]
  simp only [lay, layCuts_map]

theorem cut_residueAt {s : String} (hs : s.toList ≠ []) (q : Position) (p : List Char) :
    (Piece.residueAt q p).flatMap (Piece.cut s) = (greedy [s] p).lay q := by
  by_cases hp : p = []
  · subst hp
    simp [Piece.residueAt, lay, layCuts]
  · rw [Piece.residueAt_of_ne_nil q hp, List.flatMap_singleton, cut_residue hs,
      String.toList_ofList]

theorem layCuts_flatMap_cut {s : String} (hs : s.toList ≠ []) :
    ∀ (pos : Position) (cuts : List (String × List Char)),
      (layCuts pos cuts).flatMap (Piece.cut s) =
        layCuts pos (cuts.flatMap fun x => (x.1, (greedy [s] x.2).head) :: (greedy [s] x.2).cuts)
  | _, [] => rfl
  | pos, (t, p) :: cuts => by
    have hlen := congrArg List.length (@greedy_text [s] p)
    simp only [text, List.length_append] at hlen
    simp only [layCuts, List.flatMap_cons, List.flatMap_append, Piece.cut, cut_residueAt hs, lay,
      layCuts_flatMap_cut hs _ cuts, List.cons_append, layCuts_append, List.append_assoc,
      Position.shift_shift, Nat.add_assoc, hlen, List.nil_append]

theorem lay_flatMap_cut {s : String} (hs : s.toList ≠ []) (q : Position) (k : Cutting) :
    (k.lay q).flatMap (Piece.cut s) = (k.refine s).lay q := by
  have hlen := congrArg List.length (@greedy_text [s] k.head)
  simp only [text, List.length_append] at hlen
  simp only [lay, refine, List.flatMap_append, cut_residueAt hs, layCuts_flatMap_cut hs,
    layCuts_append, List.append_assoc, Position.shift_shift, hlen]

theorem length_drop_lt {w : List Char} {s : String} (h : opens w s = true) :
    (w.drop s.length).length < w.length := by
  obtain ⟨hs, hpre⟩ := opens_iff.mp h
  have hlen := hpre.length_le
  rw [List.length_drop, ← String.length_toList]
  have := List.length_pos_iff.mpr hs
  omega

theorem refine_consSign (s t : String) (k : Cutting) :
    (consSign t k).refine s = consSign t (k.refine s) := by
  simp [refine, consSign]

theorem refine_consChar {s : String} {c : Char} {k : Cutting}
    (hn : opens (c :: k.head) s = false) : (consChar c k).refine s = consChar c (k.refine s) := by
  have hfind : [s].find? (opens (c :: k.head)) = none := by simp [hn]
  simp [refine, consChar, greedy_of_find_none hfind]

theorem refine_sign_head {s : String} (hs : s.toList ≠ []) (k : Cutting) :
    (⟨s.toList ++ k.head, k.cuts⟩ : Cutting).refine s = consSign s (k.refine s) := by
  have hfind : [s].find? (opens (s.toList ++ k.head)) = some s := by
    simp [opens, hs, List.isPrefixOf_iff_prefix]
  have hdrop : (s.toList ++ k.head).drop s.length = k.head := by
    rw [← String.length_toList, List.drop_left]
  simp only [refine]
  rw [greedy_of_find_some hfind, hdrop]
  rfl

theorem find?_inside {s : String} {rest : List Char}
    (hsep : ∀ t ∈ signs, t ≠ s → ¬ t.toList <:+: s.toList ∧ ¬ Straddles s.toList t.toList)
    (hs : s ∉ signs) {i : Nat} (hi : i < s.toList.length) :
    signs.find? (opens ((s.toList ++ rest).drop i)) = none := by
  rw [List.find?_eq_none]
  intro t ht hopen
  obtain ⟨-, hpre⟩ := opens_iff.mp hopen
  have hts : t ≠ s := fun h => hs (h ▸ ht)
  rw [List.drop_append_of_le_length hi.le] at hpre
  -- the occurrence of `t` ends inside `s` or runs on past its end
  rcases List.prefix_or_prefix_of_prefix hpre (List.prefix_append _ _) with h | h
  · exact (hsep t ht hts).1 (h.isInfix.trans (List.drop_suffix i _).isInfix)
  · have hne : s.toList.drop i ≠ [] := by
      rw [← List.length_pos_iff, List.length_drop]
      omega
    exact (hsep t ht hts).2 ⟨_, (List.mem_tails _ _).mpr (List.drop_suffix i _), hne, h⟩

theorem refine_greedy {s : String} (hs : s.toList ≠ [])
    (hsep : ∀ t ∈ signs, t ≠ s → ¬ t.toList <:+: s.toList ∧ ¬ Straddles s.toList t.toList) :
    ∀ w : List Char, (greedy signs w).refine s = greedy (signs ++ [s]) w
  | [] => by simp [refine]
  | c :: cs => by
    cases hf : signs.find? (opens (c :: cs)) with
    | some t =>
      have hf' : (signs ++ [s]).find? (opens (c :: cs)) = some t := by
        rw [List.find?_append, hf]
        rfl
      have := length_drop_lt (List.find?_some hf)
      rw [greedy_of_find_some hf, greedy_of_find_some hf', refine_consSign,
        refine_greedy hs hsep ((c :: cs).drop t.length)]
    | none =>
      by_cases ho : opens (c :: cs) s = true
      · have hf' : (signs ++ [s]).find? (opens (c :: cs)) = some s := by
          rw [List.find?_append, hf]
          simp [ho]
        have hsn : s ∉ signs := fun h => List.find?_eq_none.mp hf s h ho
        obtain ⟨rest, hrest⟩ := (opens_iff.mp ho).2
        have hinside : ∀ i < s.toList.length,
            signs.find? (opens ((s.toList ++ rest).drop i)) = none :=
          fun _ hi => find?_inside hsep hsn hi
        have := length_drop_lt ho
        have hdrop : (c :: cs).drop s.length = rest := by
          rw [← hrest, ← String.length_toList, List.drop_left]
        rw [greedy_of_find_some hf', ← hrest, greedy_append hinside, refine_sign_head hs, hrest,
          hdrop, refine_greedy hs hsep rest]
      · have hf' : (signs ++ [s]).find? (opens (c :: cs)) = none := by
          rw [List.find?_append, hf]
          simp [ho]
        have hn : opens (c :: (greedy signs cs).head) s = false := by
          rw [Bool.eq_false_iff]
          intro h
          obtain ⟨hne, hpre⟩ := opens_iff.mp h
          exact ho (opens_iff.mpr
            ⟨hne, hpre.trans (List.cons_prefix_cons.mpr ⟨rfl, greedy_head_prefix cs⟩)⟩)
        rw [greedy_of_find_none hf, greedy_of_find_none hf', refine_consChar hn,
          refine_greedy hs hsep cs]
termination_by w => w.length
decreasing_by
  all_goals simp_wf
  all_goals grind

theorem cutAll_lay_greedy (q : Position) (w : List Char) :
    ∀ {pre rest : List String}, (∀ a ∈ pre ++ rest, a.toList ≠ []) → Separate (pre ++ rest) →
      cutAll rest ((greedy pre w).lay q) = (greedy (pre ++ rest) w).lay q
  | pre, [], _, _ => by
    rw [List.append_nil]
    rfl
  | pre, s :: rest, hne, hsep => by
    have hs : s.toList ≠ [] := hne s (by simp)
    have hsep' : ∀ t ∈ pre, t ≠ s → ¬ t.toList <:+: s.toList ∧ ¬ Straddles s.toList t.toList :=
      fun t ht hts => ⟨(hsep t (by simp [ht]) s (by simp) hts).1,
        (hsep s (by simp) t (by simp [ht]) (Ne.symm hts)).2⟩
    have happ : pre ++ s :: rest = (pre ++ [s]) ++ rest := by simp
    rw [happ] at hne hsep ⊢
    rw [cutAll_cons, lay_flatMap_cut hs, refine_greedy hs hsep' w]
    exact cutAll_lay_greedy q w hne hsep

theorem find?_eq_of_perm {α : Type} {p : α → Bool} {l l' : List α} (hp : l.Perm l')
    (hu : ∀ a ∈ l, ∀ b ∈ l, p a = true → p b = true → a = b) : l.find? p = l'.find? p := by
  cases h : l.find? p with
  | none =>
    exact (List.find?_eq_none.mpr fun x hx => List.find?_eq_none.mp h x (hp.mem_iff.mpr hx)).symm
  | some a =>
    have ham := List.mem_of_find?_eq_some h
    cases h' : l'.find? p with
    | none => exact absurd (List.find?_some h) (List.find?_eq_none.mp h' a (hp.mem_iff.mp ham))
    | some b =>
      rw [hu a ham b (hp.mem_iff.mpr (List.mem_of_find?_eq_some h')) (List.find?_some h)
        (List.find?_some h')]

theorem greedy_perm {signs' : List String} (hp : signs.Perm signs')
    (hsep : ∀ a ∈ signs, ∀ b ∈ signs, a ≠ b → ¬ a.toList <:+: b.toList) (w : List Char) :
    greedy signs w = greedy signs' w := by
  have hfind : ∀ w, signs.find? (opens w) = signs'.find? (opens w) := fun w =>
    find?_eq_of_perm hp fun a ha b hb hoa hob => by
      by_contra hab
      obtain ⟨-, hpa⟩ := opens_iff.mp hoa
      obtain ⟨-, hpb⟩ := opens_iff.mp hob
      rcases List.prefix_or_prefix_of_prefix hpa hpb with h | h
      · exact hsep a ha b hb hab h.isInfix
      · exact hsep b hb a ha (Ne.symm hab) h.isInfix
  fun_induction greedy signs w with
  | case1 => simp
  | case2 c cs s h ih => rw [greedy_of_find_some ((hfind _).symm.trans h), ih]
  | case3 c cs h ih => rw [greedy_of_find_none ((hfind _).symm.trans h), ih]

end Cutting

theorem cutAll_residue_greedy {s : String} {rest : List String}
    (hne : ∀ a ∈ s :: rest, a.toList ≠ []) (hsep : Separate (s :: rest)) (w : String) (sp : Span) :
    cutAll (s :: rest) [.residue w sp] = (Cutting.greedy (s :: rest) w.toList).lay sp.start := by
  rw [cutAll_cons, List.flatMap_singleton, Cutting.cut_residue (hne s List.mem_cons_self)]
  exact @Cutting.cutAll_lay_greedy sp.start w.toList [s] rest hne hsep

theorem eq_replicate_of_empty {S : List String} {a : String} (ha : a ∈ S) (he : a.toList = [])
    (hsep : Separate S) : S = List.replicate S.length a :=
  List.eq_replicate_iff.mpr ⟨rfl, fun b hb => by
    by_contra hba
    exact (hsep a ha b hb (Ne.symm hba)).1 (by rw [he]; exact List.nil_infix)⟩

/-- When no sign occurs in another and no end of one begins another, the order of the signs does
not change the scan: it gives the same tokens with the same spans, or the same error. -/
theorem scan_perm {S S' : List String} (hsep : Separate S) (hp : S.Perm S') (source : String) :
    Token.scan S source = Token.scan S' source := by
  by_cases hne : ∀ a ∈ S, a.toList ≠ []
  · have hsep' : Separate S' := fun a ha b hb => hsep a (hp.mem_iff.mpr ha) b (hp.mem_iff.mpr hb)
    have hne' : ∀ a ∈ S', a.toList ≠ [] := fun a ha => hne a (hp.mem_iff.mpr ha)
    have hcut : ∀ p, cutAll S [p] = cutAll S' [p] := by
      intro p
      cases p with
      | sign s sp => rw [cutAll_sign, cutAll_sign]
      | residue w sp =>
        cases S with
        | nil => rw [← hp.nil_eq]
        | cons s rest =>
          cases S' with
          | nil => exact absurd hp.length_eq (by simp)
          | cons s' rest' =>
            rw [cutAll_residue_greedy hne hsep, cutAll_residue_greedy hne' hsep',
              Cutting.greedy_perm hp fun a ha b hb hab => (hsep a ha b hb hab).1]
    unfold Token.scan
    rw [cutAll_eq_flatMap S, cutAll_eq_flatMap S', List.flatMap_congr fun p _ => hcut p]
  · obtain ⟨a, ha, he⟩ : ∃ a ∈ S, a.toList = [] := by simpa using hne
    have hS := eq_replicate_of_empty ha he hsep
    have hS' : S' = List.replicate S.length a := List.perm_replicate.mp (hS ▸ hp.symm)
    rw [hS', ← hS]

theorem scan_perm_plus_times :
    Separate ["+", "*"] ∧ ["+", "*"].Perm ["*", "+"] ∧
      Token.scan ["+", "*"] "a+b*c" = Token.scan ["*", "+"] "a+b*c" :=
  ⟨by decide, by decide, scan_perm (by decide) (by decide) _⟩

theorem scan_overlap_order :
    (∀ a ∈ ["ab", "bc"], ∀ b ∈ ["ab", "bc"], a ≠ b → ¬ a.toList <:+: b.toList) ∧
      ["ab", "bc"].Perm ["bc", "ab"] ∧
      Token.scan ["ab", "bc"] "abc" ≠ Token.scan ["bc", "ab"] "abc" := by
  refine ⟨by decide, by decide, fun h => ?_⟩
  have hspans := congrArg (fun r => r.toOption.map (·.map Token.span)) h
  revert hspans
  decide +kernel

end Mixfix
