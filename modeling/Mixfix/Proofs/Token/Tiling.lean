import Mixfix.Proofs.Token.Classes
import Mixfix.Proofs.Token.SignOrder

namespace Mixfix

namespace Piece

/-- Pieces that tile one line from `p` up to `q`: each begins where the one before it ends and is
as many columns wide as its text has characters. -/
def Tiles : Position → List Piece → Position → Prop
  | p, [], q => p = q
  | p, x :: xs, q => x.span = ⟨p, p.shift x.text.length⟩ ∧ Tiles (p.shift x.text.length) xs q

theorem Tiles.stop : ∀ {p q : Position} {xs : List Piece}, Tiles p xs q →
    q = p.shift (xs.flatMap text).length
  | _, _, [], h => (h : _ = _) ▸ rfl
  | p, _, x :: xs, ⟨_, h⟩ => by
    rw [Tiles.stop h, List.flatMap_cons, List.length_append, Position.shift_shift]

theorem Tiles.append : ∀ {p r q : Position} {xs ys : List Piece}, Tiles p xs r → Tiles r ys q →
    Tiles p (xs ++ ys) q
  | _, _, _, [], _, h, hy => (h : _ = _) ▸ hy
  | _, _, _, _ :: _, _, ⟨hx, h⟩, hy => ⟨hx, Tiles.append h hy⟩

@[simp] theorem text_residueAt (q : Position) (cs : List Char) : (residueAt q cs).flatMap text = cs := by
  unfold residueAt
  split_ifs with hnil
  · rw [List.isEmpty_iff.mp hnil]
    rfl
  · simp [text]

theorem tiles_residueAt (q : Position) (cs : List Char) :
    Tiles q (residueAt q cs) (q.shift cs.length) := by
  unfold residueAt
  split_ifs with hnil
  · rw [List.isEmpty_iff.mp hnil]
    rfl
  · exact ⟨by simp [span, text], by simp [Tiles, text]⟩

theorem text_placeAfterSigns (sign : String) : ∀ (pos : Position) (parts : List (List Char)),
    (placeAfterSigns sign pos parts).flatMap text = parts.flatMap (sign.toList ++ ·)
  | _, [] => rfl
  | pos, q :: parts => by
    simp [placeAfterSigns, text, text_placeAfterSigns]

theorem tiles_placeAfterSigns (sign : String) : ∀ (pos : Position) (parts : List (List Char)),
    Tiles pos (placeAfterSigns sign pos parts) (pos.shift (parts.flatMap (sign.toList ++ ·)).length)
  | _, [] => rfl
  | pos, q :: parts => by
    have hq := tiles_residueAt (pos.shift sign.length) q
    rw [Position.shift_shift] at hq
    have h := hq.append (tiles_placeAfterSigns sign (pos.shift (sign.length + q.length)) parts)
    rw [placeAfterSigns, List.cons_append, Tiles]
    refine ⟨by simp [span, text, String.length_toList], ?_⟩
    simpa [text, Nat.add_assoc, String.length_toList] using h

theorem text_cut (sign : String) : ∀ x : Piece, (x.cut sign).flatMap text = x.text
  | .sign _ _ => by simp [cut]
  | .residue w span => by
    obtain ⟨first, rest, heq, hw⟩ := splitOn_spec sign.toList w.toList
    unfold Piece.cut
    dsimp only
    rw [heq, List.flatMap_append, text_residueAt, text_placeAfterSigns]
    exact hw.symm

theorem tiles_cut (sign w : String) (span : Span) :
    Tiles span.start ((residue w span).cut sign) (span.start.shift w.length) := by
  obtain ⟨first, rest, heq, hw⟩ := splitOn_spec sign.toList w.toList
  have h := (tiles_residueAt span.start first).append
    (tiles_placeAfterSigns sign (span.start.shift first.length) rest)
  unfold Piece.cut
  dsimp only
  rw [heq]
  rwa [Position.shift_shift, ← List.length_append, ← hw, String.length_toList] at h

/-- What cutting the residue `w` at `span` by `sign` makes of it: pieces whose texts put together
give `w` and which tile the columns from the residue's start, each as wide as its text has
characters; every sign among them is `sign`, and every residue is a nonempty part of `w` in which
a nonempty `sign` does not occur. -/
structure CutOf (sign w : String) (span : Span) (ps : List Piece) : Prop where
  text_eq : ps.flatMap text = w.toList
  tiles : Tiles span.start ps (span.start.shift w.length)
  sign_eq : ∀ s sp, Piece.sign s sp ∈ ps → s = sign
  residue_ne : ∀ v sp, Piece.residue v sp ∈ ps → v.toList ≠ []
  residue_inside : ∀ v sp, Piece.residue v sp ∈ ps → v.toList <:+: w.toList
  residue_free : ∀ v sp, Piece.residue v sp ∈ ps → sign.toList ≠ [] → ¬ sign.toList <:+: v.toList

theorem cutOf_cut (sign w : String) (span : Span) : CutOf sign w span ((residue w span).cut sign) where
  text_eq := text_cut sign (.residue w span)
  tiles := tiles_cut sign w span
  sign_eq s sp h := by
    rcases mem_cut h with ⟨-, _, hs⟩ | ⟨_, _, _, _, hs⟩
    · exact (Piece.sign.inj hs).1
    · cases hs
  residue_ne v sp h := by
    rcases mem_cut h with ⟨-, _, hs⟩ | ⟨part, _, hne, _, hs⟩
    · cases hs
    · rwa [(Piece.residue.inj hs).1, String.toList_ofList]
  residue_inside v sp h := by
    rcases mem_cut h with ⟨-, _, hs⟩ | ⟨part, hmem, _, _, hs⟩
    · cases hs
    · rw [(Piece.residue.inj hs).1, String.toList_ofList]
      exact infix_of_mem_splitOn hmem
  residue_free v sp h hne := by
    rcases mem_cut h with ⟨-, _, hs⟩ | ⟨part, hmem, _, _, hs⟩
    · cases hs
    · rw [(Piece.residue.inj hs).1, String.toList_ofList]
      exact not_infix_of_mem_splitOn hne hmem

theorem CutOf.tiles_span_iff {sign w : String} {span : Span} {ps : List Piece} (h : CutOf sign w span ps) :
    Tiles span.start ps span.stop ↔ span.stop = span.start.shift w.length := by
  constructor
  · intro ht
    rw [ht.stop, h.text_eq, String.length_toList]
  · intro he
    rw [he]
    exact h.tiles

theorem Tiles.cut (sign : String) {p : Position} {x : Piece}
    (hx : x.span = ⟨p, p.shift x.text.length⟩) : Tiles p (x.cut sign) (p.shift x.text.length) := by
  cases x with
  | sign s sp => exact ⟨hx, rfl⟩
  | residue w sp =>
    simp only [span, text] at hx
    subst hx
    simpa [text, String.length_toList] using tiles_cut sign w ⟨p, p.shift w.toList.length⟩

theorem Tiles.flatMap_cut (sign : String) : ∀ {p q : Position} {xs : List Piece}, Tiles p xs q →
    Tiles p (xs.flatMap (Piece.cut sign)) q
  | _, _, [], h => h
  | _, _, _ :: _, ⟨hx, h⟩ => (Tiles.cut sign hx).append (Tiles.flatMap_cut sign h)

theorem Tiles.cutAll : ∀ (signs : List String) {p q : Position} {ps : List Piece}, Tiles p ps q →
    Tiles p (Mixfix.cutAll signs ps) q
  | [], _, _, _, h => h
  | s₀ :: signs, _, _, _, h => Tiles.cutAll signs (h.flatMap_cut s₀)

theorem Laid.tiles {p : Position} {cs : List Char} {ps : List Piece} (h : Laid p cs ps) :
    ∀ x ∈ ps, Tiles x.span.start [x] x.span.stop := by
  induction h with
  | nil => simp
  | @cons p g cs ps x hg hx hspan hrest ih =>
    intro y hy
    rcases List.mem_cons.mp hy with rfl | hy
    · have hstop : p.walk (g ++ y.text) = (p.walk g).shift y.text.length := by
        rw [Position.walk_append, Position.walk_of_no_newline (newline_of_blank_free hx)]
      rw [Tiles, Tiles, hspan, hstop]
      exact ⟨rfl, rfl⟩
    · exact ih y hy

theorem text_cutAll : ∀ (signs : List String) (ps : List Piece),
    (Mixfix.cutAll signs ps).flatMap text = ps.flatMap text
  | [], _ => rfl
  | s₀ :: signs, ps => by
    rw [cutAll_cons, text_cutAll, List.flatMap_assoc]
    exact congrArg List.flatten (List.map_congr_left fun x _ => text_cut s₀ x)

theorem infix_of_mem_flatMap_cut {sign v : String} {sp : Span} {ps : List Piece}
    (h : Piece.residue v sp ∈ ps.flatMap (Piece.cut sign)) :
    ∃ w span, Piece.residue w span ∈ ps ∧ v.toList <:+: w.toList := by
  obtain ⟨x, hx, hv⟩ := List.mem_flatMap.mp h
  cases x with
  | sign s sp' => simp [cut] at hv
  | residue w span => exact ⟨w, span, hx, (cutOf_cut sign w span).residue_inside v sp hv⟩

theorem infix_of_mem_cutAll : ∀ {signs : List String} {ps : List Piece} {v : String} {sp : Span},
    Piece.residue v sp ∈ Mixfix.cutAll signs ps →
      ∃ w span, Piece.residue w span ∈ ps ∧ v.toList <:+: w.toList
  | [], _, v, sp, h => ⟨v, sp, h, List.infix_refl _⟩
  | s₀ :: signs, ps, v, sp, h => by
    rw [cutAll_cons] at h
    obtain ⟨u, su, hu, hvu⟩ := infix_of_mem_cutAll h
    obtain ⟨w, span, hw, huw⟩ := infix_of_mem_flatMap_cut hu
    exact ⟨w, span, hw, hvu.trans huw⟩

theorem free_of_mem_cutAll : ∀ {signs : List String} {ps : List Piece} {v : String} {sp : Span},
    Piece.residue v sp ∈ Mixfix.cutAll signs ps → ∀ a ∈ signs, a.toList ≠ [] → ¬ a.toList <:+: v.toList
  | [], _, _, _, _, _, ha, _ => absurd ha List.not_mem_nil
  | s₀ :: signs, ps, v, sp, h, a, ha, hne => by
    rw [cutAll_cons] at h
    rcases List.mem_cons.mp ha with rfl | ha
    · obtain ⟨u, su, hu, hvu⟩ := infix_of_mem_cutAll h
      obtain ⟨x, -, hx⟩ := List.mem_flatMap.mp hu
      cases x with
      | sign s sp' => simp [cut] at hx
      | residue w span => exact fun hi => (cutOf_cut a w span).residue_free u su hx hne (hi.trans hvu)
    · exact free_of_mem_cutAll h a ha hne

/-- What a cut does to a piece. A sign piece passes unchanged. A residue is cut into pieces whose
texts put together give its text and which tile the columns from its start, each as wide as its
text has characters, and they tile the residue's own span exactly when that span is as wide as its
text; every sign among them is the sign, and every residue is a nonempty part of the residue in
which a nonempty sign does not occur. Cutting by a list of signs in turn keeps the text and the
tiling of any run of pieces, and leaves no listed nonempty sign in a residue; what it makes of a
word of a source tiles the word's span. -/
theorem cut_pieces :
    (∀ sign s sp, (Piece.sign s sp).cut sign = [.sign s sp]) ∧
    (∀ sign w span, CutOf sign w span ((residue w span).cut sign) ∧
      (Tiles span.start ((residue w span).cut sign) span.stop ↔
        span.stop = span.start.shift w.length)) ∧
    (∀ (signs : List String) (ps : List Piece),
      (Mixfix.cutAll signs ps).flatMap text = ps.flatMap text ∧
      (∀ p q, Tiles p ps q → Tiles p (Mixfix.cutAll signs ps) q) ∧
      ∀ v sp, Piece.residue v sp ∈ Mixfix.cutAll signs ps → ∀ a ∈ signs, a.toList ≠ [] →
        ¬ a.toList <:+: v.toList) ∧
    ∀ (signs : List String) (source : String), ∀ x ∈ words source,
      Tiles x.span.start (Mixfix.cutAll signs [x]) x.span.stop :=
  ⟨fun _ _ _ => rfl,
    fun sign w span => ⟨cutOf_cut sign w span, (cutOf_cut sign w span).tiles_span_iff⟩,
    fun signs ps => ⟨text_cutAll signs ps, fun _ _ h => h.cutAll signs,
      fun _ _ h => free_of_mem_cutAll h⟩,
    fun signs source x hx => ((words_laid source).tiles x hx).cutAll signs⟩

end Piece

end Mixfix
