import Mathlib
import Mixfix.Token.Lexer

namespace Mixfix

namespace Position

/-- A position as a pair ordered by its first component, then its second. -/
def key (p : Position) : ℕ ×ₗ ℕ :=
  toLex (p.line, p.column)

theorem key_injective : Function.Injective key := by
  rintro ⟨l, c⟩ ⟨l', c'⟩ h
  simp only [key, toLex_inj, Prod.mk.injEq] at h
  rw [h.1, h.2]

instance : LinearOrder Position :=
  LinearOrder.lift' key key_injective

theorem le_iff {p q : Position} :
    p ≤ q ↔ p.line < q.line ∨ p.line = q.line ∧ p.column ≤ q.column :=
  Prod.Lex.toLex_le_toLex

theorem lt_iff {p q : Position} :
    p < q ↔ p.line < q.line ∨ p.line = q.line ∧ p.column < q.column :=
  Prod.Lex.toLex_lt_toLex

theorem le_eq_decide (p q : Position) : p.le q = decide (p ≤ q) := by
  rw [Bool.eq_iff_iff, decide_eq_true_iff, le_iff]
  simp only [Position.le, Position.compare, bne_iff_ne, ne_eq]
  rcases Nat.lt_trichotomy p.line q.line with h | h | h
  · simp [Nat.compare_eq_lt.mpr h, h]
  · simp [h, compare_gt_iff_gt]
  · simp [Nat.compare_eq_gt.mpr h, h.ne', Nat.not_lt.mpr h.le]

/-- The position after reading a character: a line feed starts the next line, and any other
character, a blank included, moves one column on. -/
def advance (p : Position) (c : Char) : Position :=
  if c = '\n' then ⟨p.line + 1, 0⟩ else p.shift 1

def walk : Position → List Char → Position
  | p, [] => p
  | p, c :: cs => walk (p.advance c) cs

def marks : Position → List Char → List Position
  | _, [] => []
  | p, c :: cs => p :: marks (p.advance c) cs

/-- Each character of a text with its position, the text read from the start. -/
def located (cs : List Char) : List (Char × Position) :=
  cs.zip (marks ⟨0, 0⟩ cs)

theorem lt_advance (p : Position) (c : Char) : p < p.advance c := by
  rw [lt_iff, advance]
  split_ifs
  · exact .inl (Nat.lt_succ_self _)
  · exact .inr ⟨rfl, Nat.lt_succ_self _⟩

@[simp] theorem walk_nil (p : Position) : p.walk [] = p := rfl

@[simp] theorem walk_cons (p : Position) (c : Char) (cs : List Char) :
    p.walk (c :: cs) = (p.advance c).walk cs := rfl

theorem walk_append (p : Position) (a b : List Char) : p.walk (a ++ b) = (p.walk a).walk b := by
  induction a generalizing p with
  | nil => rfl
  | cons c a ih => exact ih _

theorem le_walk (p : Position) (cs : List Char) : p ≤ p.walk cs := by
  induction cs generalizing p with
  | nil => exact le_rfl
  | cons c cs ih => exact (lt_advance p c).le.trans (ih _)

theorem length_marks (p : Position) (cs : List Char) : (p.marks cs).length = cs.length := by
  induction cs generalizing p with
  | nil => rfl
  | cons c cs ih => simp [marks, ih]

theorem marks_append (p : Position) (a b : List Char) :
    p.marks (a ++ b) = p.marks a ++ (p.walk a).marks b := by
  induction a generalizing p with
  | nil => rfl
  | cons c a ih => simp [marks, ih]

theorem mem_marks {p q : Position} {cs : List Char} (h : q ∈ p.marks cs) :
    p ≤ q ∧ q < p.walk cs := by
  induction cs generalizing p with
  | nil => cases h
  | cons c cs ih =>
    rcases List.mem_cons.mp h with rfl | h
    · exact ⟨le_rfl, (lt_advance q c).trans_le (le_walk _ cs)⟩
    · obtain ⟨h₁, h₂⟩ := ih h
      exact ⟨(lt_advance p c).le.trans h₁, h₂⟩

theorem walk_of_no_newline {cs : List Char} (h : ∀ c ∈ cs, c ≠ '\n') (p : Position) :
    p.walk cs = p.shift cs.length := by
  induction cs generalizing p with
  | nil => simp [shift]
  | cons c cs ih =>
    rw [walk_cons, ih fun c hc => h c (List.mem_cons_of_mem _ hc), advance,
      if_neg (h c List.mem_cons_self)]
    simp only [shift, List.length_cons, Position.mk.injEq, true_and]
    omega

end Position

namespace Numeral

theorem isInteger_digits {cs : List Char} (h : isInteger cs = true) : ∀ c ∈ cs, c.isDigit = true := by
  unfold isInteger at h
  split at h
  · intro c hc
    rw [List.mem_singleton.mp hc]
    rfl
  · rename_i c ds _
    simp only [Bool.and_eq_true, decide_eq_true_eq, List.all_eq_true] at h
    intro d hd
    rcases List.mem_cons.mp hd with rfl | hd
    · obtain ⟨⟨h₁, h₂⟩, -⟩ := h
      simp only [Char.isDigit, Bool.and_eq_true, decide_eq_true_eq]
      exact ⟨le_trans (by decide) h₁, h₂.trans (by decide)⟩
    · exact h.2 d hd
  · cases h

theorem isMantissa_chars {cs : List Char} (h : isMantissa cs = true) :
    ∀ c ∈ cs, c.isDigit = true ∨ c = '.' := by
  intro c hc
  have hsplit := @List.takeWhile_append_dropWhile _ (fun x => decide (x ≠ '.')) cs
  rw [← hsplit, List.mem_append] at hc
  unfold isMantissa at h
  rcases hd : cs.dropWhile (fun x => decide (x ≠ '.')) with _ | ⟨d, part⟩ <;> rw [hd] at h hc
  · simp only [List.not_mem_nil, or_false] at hc
    exact .inl (isInteger_digits h c hc)
  · simp only [Bool.and_eq_true, List.all_eq_true] at h
    rcases hc with hc | hc
    · split_ifs at h with hw
      · rw [List.isEmpty_iff.mp hw] at hc
        cases hc
      · exact .inl (isInteger_digits h.2 c hc)
    · rcases List.mem_cons.mp hc with rfl | hc
      · have := @List.head_dropWhile_not _ (fun x => decide (x ≠ '.')) cs (by rw [hd]; exact List.cons_ne_nil _ _)
        simp only [hd, List.head_cons, ne_eq, decide_eq_false_iff_not, not_not] at this
        exact .inr this
      · exact .inl (h.1 c hc)

theorem isNumber_join {m s e : String} (hm : isMarkedMantissa m = true) (hs : s = "+" ∨ s = "-")
    (he : isExponentDigits e = true) : isNumber (m ++ s ++ e) = true := by
  unfold isMarkedMantissa at hm
  rcases hr : m.toList.reverse with _ | ⟨c, rest⟩ <;> rw [hr] at hm
  · cases hm
  simp only [Bool.and_eq_true, Bool.or_eq_true, decide_eq_true_eq] at hm
  obtain ⟨hc, hmant⟩ := hm
  have hmlist : m.toList = rest.reverse ++ [c] := by
    rw [← List.reverse_reverse m.toList, hr, List.reverse_cons]
  have hplain : ∀ d ∈ rest.reverse, (decide (d ≠ 'e') && decide (d ≠ 'E')) = true := by
    intro d hd
    rcases isMantissa_chars hmant d hd with h | rfl
    · simp only [ne_eq, Bool.and_eq_true, decide_eq_true_eq]
      constructor <;> rintro rfl <;> simp [Char.isDigit] at h
    · decide
  have hmark : (decide (c ≠ 'e') && decide (c ≠ 'E')) = false := by
    rcases hc with rfl | rfl <;> decide
  unfold isNumber
  simp only [String.toList_append, hmlist, List.append_assoc, List.cons_append]
  rw [List.takeWhile_append_of_pos hplain, List.dropWhile_append_of_pos hplain,
    List.takeWhile_cons, List.dropWhile_cons]
  simp only [hmark, Bool.false_eq_true, if_false, List.append_nil, hmant, Bool.true_and]
  unfold isExponentDigits at he
  rcases hs with rfl | rfl <;> simpa [isExponentTail] using he

end Numeral

namespace Span

/-- The characters of a text that a span covers: those whose positions lie from its start up to,
not including, its end. -/
def covered (sp : Span) (cs : List Char) : List Char :=
  ((Position.located cs).filter fun x => sp.start ≤ x.2 ∧ x.2 < sp.stop).map Prod.fst

theorem filter_marks_walk (o : Position) (pre w post : List Char) :
    (((pre ++ w ++ post).zip (o.marks (pre ++ w ++ post))).filter fun x =>
      o.walk pre ≤ x.2 ∧ x.2 < o.walk (pre ++ w)).map Prod.fst = w := by
  rw [Position.marks_append, Position.marks_append, List.zip_append (by simp [Position.length_marks]),
    List.zip_append (by simp [Position.length_marks]), List.filter_append, List.filter_append,
    List.map_append, List.map_append]
  have hpre : ((pre.zip (o.marks pre)).filter fun x => o.walk pre ≤ x.2 ∧ x.2 < o.walk (pre ++ w)) =
      [] := by
    refine List.filter_eq_nil_iff.mpr fun x hx => ?_
    have h := (Position.mem_marks (List.of_mem_zip hx).2).2
    simp [not_le.mpr h]
  have hmid : ((w.zip ((o.walk pre).marks w)).filter fun x =>
      o.walk pre ≤ x.2 ∧ x.2 < o.walk (pre ++ w)) = w.zip ((o.walk pre).marks w) := by
    refine List.filter_eq_self.mpr fun x hx => ?_
    have h := Position.mem_marks (List.of_mem_zip hx).2
    rw [Position.walk_append]
    simp [h.1, h.2]
  have hpost : ((post.zip ((o.walk (pre ++ w)).marks post)).filter fun x =>
      o.walk pre ≤ x.2 ∧ x.2 < o.walk (pre ++ w)) = [] := by
    refine List.filter_eq_nil_iff.mpr fun x hx => ?_
    have h := (Position.mem_marks (List.of_mem_zip hx).2).1
    simp [not_lt.mpr h]
  rw [hpre, hmid, hpost, List.map_fst_zip (by simp [Position.length_marks])]
  simp

theorem covered_walk (pre w post : List Char) :
    covered ⟨(⟨0, 0⟩ : Position).walk pre, (⟨0, 0⟩ : Position).walk (pre ++ w)⟩ (pre ++ w ++ post) =
      w :=
  filter_marks_walk _ pre w post

end Span

namespace Piece

def text : Piece → List Char
  | .sign s _ | .residue s _ => s.toList

/-- Pieces laid out over a text read from `p`: in order, each over its own characters, which hold
no blank, at the span from the position before them to the position after, with only blanks before,
between and after them. -/
inductive Laid : Position → List Char → List Piece → Prop
  | nil {p : Position} {g : List Char} : (∀ c ∈ g, Text.isBlank c = true) → Laid p g []
  | cons {p : Position} {g cs : List Char} {ps : List Piece} (x : Piece) :
      (∀ c ∈ g, Text.isBlank c = true) → (∀ c ∈ x.text, Text.isBlank c = false) →
      x.span = ⟨p.walk g, p.walk (g ++ x.text)⟩ → Laid (p.walk (g ++ x.text)) cs ps →
      Laid p (g ++ x.text ++ cs) (x :: ps)

theorem Laid.blanks {p : Position} {g cs : List Char} {ps : List Piece}
    (hg : ∀ c ∈ g, Text.isBlank c = true) (h : Laid (p.walk g) cs ps) : Laid p (g ++ cs) ps := by
  cases h with
  | nil hg' => exact .nil fun c hc => (List.mem_append.mp hc).elim (hg c) (hg' c)
  | @cons _ g' cs' ps' x hg' hx hspan hrest =>
    rw [← List.append_assoc, ← List.append_assoc]
    refine .cons x (fun c hc => (List.mem_append.mp hc).elim (hg c) (hg' c)) hx ?_ ?_
    · simp only [hspan, Position.walk_append]
    · rwa [List.append_assoc, Position.walk_append p g]

theorem Laid.append {p : Position} {a b : List Char} {qs ps : List Piece} (hq : Laid p a qs)
    (hp : Laid (p.walk a) b ps) : Laid p (a ++ b) (qs ++ ps) := by
  induction hq with
  | nil hg => exact Laid.blanks hg hp
  | cons x hg hx hspan _ ih =>
    rw [List.append_assoc, List.cons_append]
    refine .cons x hg hx hspan (ih ?_)
    rwa [← Position.walk_append]

theorem newline_of_blank_free {cs : List Char} (h : ∀ c ∈ cs, Text.isBlank c = false) :
    ∀ c ∈ cs, c ≠ '\n' := fun c hc he => by
  have := h c hc
  rw [he] at this
  exact absurd this (by decide)

theorem residueAt_laid {q : Position} {cs rest : List Char} {ps : List Piece}
    (hcs : ∀ c ∈ cs, Text.isBlank c = false) (h : Laid (q.walk cs) rest ps) :
    Laid q (cs ++ rest) (residueAt q cs ++ ps) := by
  unfold residueAt
  split_ifs with hnil
  · rw [List.isEmpty_iff.mp hnil] at h ⊢
    exact h
  · have hnl := newline_of_blank_free hcs
    have htext : (Piece.residue (String.ofList cs) ⟨q, q.shift cs.length⟩).text = cs := by
      simp [text]
    have hlaid := Laid.cons (g := []) (p := q)
      (.residue (String.ofList cs) ⟨q, q.shift cs.length⟩) (fun _ h => nomatch h)
      (by rw [htext]; exact hcs) (by rw [htext]; simp [span, Position.walk_of_no_newline hnl])
      (by rw [htext]; exact h)
    rwa [htext] at hlaid

theorem blankSplit_laid : ∀ (start pos : Position) (word cs : List Char),
    pos = start.walk word.reverse → (∀ c ∈ word, Text.isBlank c = false) →
    Laid start (word.reverse ++ cs) (blankSplit start pos word cs)
  | start, pos, word, [], hpos, hword => by
    rw [blankSplit, ← List.append_nil (residueAt _ _)]
    exact residueAt_laid (by simpa using hword) (.nil fun _ h => nomatch h)
  | start, pos, word, c :: cs, hpos, hword => by
    by_cases hc : Text.isBlank c = true
    · have hnext : (if c = '\n' then (⟨pos.line + 1, 0⟩ : Position) else pos.shift 1) =
          pos.walk [c] := rfl
      rw [blankSplit, if_pos hc]
      dsimp only
      rw [hnext]
      refine residueAt_laid (by simpa using hword) ?_
      rw [← hpos, ← List.singleton_append]
      exact Laid.blanks (by simpa using hc)
        (blankSplit_laid _ _ [] cs rfl fun _ h => nomatch h)
    · have hc' : Text.isBlank c = false := by simpa using hc
      have hnl : c ≠ '\n' := fun he => by
        rw [he] at hc'
        exact absurd hc' (by decide)
      have h := blankSplit_laid start (pos.shift 1) (c :: word) cs
        (by rw [List.reverse_cons, Position.walk_append, ← hpos]; simp [Position.advance, hnl])
        (by simpa [hc'] using hword)
      rw [blankSplit, if_neg hc]
      simpa using h

theorem words_laid (source : String) : Laid ⟨0, 0⟩ source.toList (words source) :=
  blankSplit_laid _ _ [] _ rfl fun _ h => nomatch h

theorem splitNonempty_spec (sep : List Char) (h : sep ≠ []) (cs : List Char) :
    ∃ first rest, splitNonempty sep h cs = first :: rest ∧
      cs = first ++ rest.flatMap (sep ++ ·) := by
  fun_induction splitNonempty sep h cs with
  | case1 => exact ⟨[], [], rfl, rfl⟩
  | case2 c cs hpre ih =>
    obtain ⟨first, rest, heq, hcs⟩ := ih
    refine ⟨[], first :: rest, by rw [heq], ?_⟩
    have hsplit : c :: cs = sep ++ (c :: cs).drop sep.length :=
      (List.prefix_iff_eq_append.mp (List.isPrefixOf_iff_prefix.mp hpre)).symm
    rw [List.flatMap_cons, List.nil_append, List.append_assoc, ← hcs]
    exact hsplit
  | case3 c cs hpre first rest heq ih =>
    obtain ⟨first', rest', heq', hcs⟩ := ih
    rw [heq] at heq'
    obtain ⟨rfl, rfl⟩ := List.cons.inj heq'
    exact ⟨c :: first, rest, rfl, by rw [hcs]; rfl⟩
  | case4 c cs hpre heq ih =>
    obtain ⟨first', rest', heq', -⟩ := ih
    rw [heq] at heq'
    cases heq'

theorem splitOn_spec (sep cs : List Char) :
    ∃ first rest, splitOn sep cs = first :: rest ∧ cs = first ++ rest.flatMap (sep ++ ·) := by
  unfold splitOn
  split_ifs with h
  · subst h
    refine ⟨[], cs.map (fun c => [c]) ++ [[]], rfl, ?_⟩
    have hflat : (cs.map fun c => [c]).flatten = cs := by
      induction cs with
      | nil => rfl
      | cons c cs ih => simp [ih]
    simp [List.flatMap_append, hflat]
  · exact splitNonempty_spec sep h cs

theorem placeAfterSigns_laid {sign : String} (hs : ∀ c ∈ sign.toList, Text.isBlank c = false) :
    ∀ (pos : Position) (parts : List (List Char)), (∀ q ∈ parts, ∀ c ∈ q, Text.isBlank c = false) →
      Laid pos (parts.flatMap (sign.toList ++ ·)) (placeAfterSigns sign pos parts)
  | pos, [], _ => .nil fun _ h => nomatch h
  | pos, q :: parts, hq => by
    have hsnl := newline_of_blank_free hs
    have hqnl := newline_of_blank_free (hq q List.mem_cons_self)
    have hrest := placeAfterSigns_laid hs (pos.shift (sign.length + q.length)) parts
      fun q' hq' => hq q' (List.mem_cons_of_mem _ hq')
    rw [placeAfterSigns, List.flatMap_cons, List.append_assoc]
    refine Laid.cons (g := []) (.sign sign ⟨pos, pos.shift sign.length⟩) (fun _ h => nomatch h) hs
      ?_ ?_
    · simp [Piece.span, Piece.text, Position.walk_of_no_newline hsnl, String.length_toList]
    · simp only [Piece.text, List.nil_append]
      rw [Position.walk_of_no_newline hsnl, String.length_toList]
      refine residueAt_laid (hq q List.mem_cons_self) ?_
      rwa [Position.walk_of_no_newline hqnl, show (pos.shift sign.length).shift q.length =
        pos.shift (sign.length + q.length) by simp [Position.shift, Nat.add_assoc]]

theorem cut_laid (sign : String) {text : String} {span : Span}
    (ht : ∀ c ∈ text.toList, Text.isBlank c = false) :
    Laid span.start text.toList ((Piece.residue text span).cut sign) := by
  obtain ⟨first, rest, heq, htext⟩ := splitOn_spec sign.toList text.toList
  have hparts : ∀ q ∈ first :: rest, ∀ c ∈ q, Text.isBlank c = false := by
    intro q hq c hc
    refine ht c ?_
    rw [htext]
    rcases List.mem_cons.mp hq with rfl | hq
    · exact List.mem_append_left _ hc
    · exact List.mem_append_right _ (List.mem_flatMap.mpr ⟨q, hq, List.mem_append_right _ hc⟩)
  rw [Piece.cut, heq]
  dsimp only
  rw [htext]
  refine residueAt_laid (hparts first List.mem_cons_self) ?_
  rcases rest with _ | ⟨q, rest⟩
  · exact .nil fun _ h => nomatch h
  · have hs : ∀ c ∈ sign.toList, Text.isBlank c = false := by
      intro c hc
      refine ht c ?_
      rw [htext, List.flatMap_cons]
      exact List.mem_append_right _ (List.mem_append_left _ (List.mem_append_left _ hc))
    rw [Position.walk_of_no_newline (newline_of_blank_free (hparts first List.mem_cons_self))]
    exact placeAfterSigns_laid hs _ _ fun q' hq' => hparts q' (List.mem_cons_of_mem _ hq')

theorem Laid.flatMap_cut (sign : String) {p : Position} {cs : List Char} {ps : List Piece}
    (h : Laid p cs ps) : Laid p cs (ps.flatMap (Piece.cut sign)) := by
  induction h with
  | nil hg => exact .nil hg
  | @cons p g cs ps x hg hx hspan _ ih =>
    rw [List.flatMap_cons]
    cases x with
    | sign s sp => exact .cons (.sign s sp) hg hx hspan ih
    | residue text sp =>
      have hcut := @cut_laid sign text sp hx
      rw [show sp.start = p.walk g by rw [show sp = _ from hspan]] at hcut
      rw [List.append_assoc]
      exact Laid.blanks hg (hcut.append (by rwa [← Position.walk_append]))

theorem Laid.cutAll (signs : List String) {p : Position} {cs : List Char} {ps : List Piece}
    (h : Laid p cs ps) : Laid p cs (Mixfix.cutAll signs ps) := by
  induction signs generalizing ps with
  | nil => exact h
  | cons sign signs ih => exact ih (h.flatMap_cut sign)

end Piece

theorem Span.merge_of_le {a b : Span} (h₁ : a.start ≤ b.start) (h₂ : a.stop ≤ b.stop) :
    a.merge b = ⟨a.start, b.stop⟩ := by
  unfold Span.merge Position.min Position.max
  rw [Position.le_eq_decide, Position.le_eq_decide, decide_eq_true h₁]
  by_cases h : b.stop ≤ a.stop
  · rw [decide_eq_true h, le_antisymm h₂ h]
    rfl
  · rw [decide_eq_false h]
    rfl

namespace Token

/-- What the characters a token's span covers say of it: a sign or a name covers exactly its text,
which holds no blank; a number covers a literal of the number grammar that reads as its value, with
only blanks besides. -/
def Covers (t : Token) (w : List Char) : Prop :=
  match t.value with
  | .sign s => w = s.toList ∧ ∀ c ∈ w, Text.isBlank c = false
  | .ident n => w = n.toList ∧ ∀ c ∈ w, Text.isBlank c = false
  | .number x =>
    Numeral.isNumber (String.ofList (w.filter (!Text.isBlank ·))) = true ∧
      finiteValue? (String.ofList (w.filter (!Text.isBlank ·))) = some x

/-- Tokens laid out over a text read from `p`: in order, each over the characters it covers, at the
span from the position before them to the position after, with only blanks before, between and after
them. -/
inductive Laid : Position → List Char → List Token → Prop
  | nil {p : Position} {g : List Char} : (∀ c ∈ g, Text.isBlank c = true) → Laid p g []
  | cons {p : Position} {g cs : List Char} {ts : List Token} (t : Token) (w : List Char) :
      (∀ c ∈ g, Text.isBlank c = true) → t.Covers w → t.span = ⟨p.walk g, p.walk (g ++ w)⟩ →
      Laid (p.walk (g ++ w)) cs ts → Laid p (g ++ w ++ cs) (t :: ts)

end Token

theorem classify_ok {text : String} {span : Span} {index : Nat} {t : Token}
    (h : classify text span index = .ok t) :
    t.span = span ∧ ((∃ x, t.value = .number x ∧ Numeral.isNumber text = true ∧
      finiteValue? text = some x) ∨ t.value = .ident text) := by
  unfold classify at h
  split at h
  · rename_i x hx
    cases h
    refine ⟨rfl, .inl ⟨x, rfl, ?_⟩⟩
    split_ifs at hx with hn
    · exact ⟨hn, hx⟩
  · split_ifs at h
    cases h
    exact ⟨rfl, .inr rfl⟩

theorem Piece.token_covers {x : Piece} {index : Nat} {t : Token} (h : x.token index = .ok t)
    (hx : ∀ c ∈ x.text, Text.isBlank c = false) : t.span = x.span ∧ t.Covers x.text := by
  cases x with
  | sign s sp =>
    cases h
    exact ⟨rfl, rfl, hx⟩
  | residue text sp =>
    obtain ⟨hspan, ⟨y, hv, hn, hy⟩ | hv⟩ := classify_ok h
    · have hw : (text.toList.filter fun c => !Text.isBlank c) = text.toList :=
        List.filter_eq_self.mpr fun c hc => by simp [hx c hc]
      refine ⟨hspan, ?_⟩
      simp only [Token.Covers, hv, Piece.text, hw, String.ofList_toList]
      exact ⟨hn, hy⟩
    · refine ⟨hspan, ?_⟩
      simp only [Token.Covers, hv]
      exact ⟨rfl, hx⟩

theorem joinExponent_eq_some {p₁ p₂ p₃ : Piece} {t : Token} (h : joinExponent p₁ p₂ p₃ = some t) :
    ∃ m ms s ss e es x, p₁ = .residue m ms ∧ p₂ = .sign s ss ∧ p₃ = .residue e es ∧
      Numeral.isMarkedMantissa m = true ∧ (s = "+" ∨ s = "-") ∧
      Numeral.isExponentDigits e = true ∧ finiteValue? (m ++ s ++ e) = some x ∧
      t = ⟨.number x, ms.merge es⟩ := by
  unfold joinExponent at h
  split at h
  · rename_i m ms s ss e es
    split_ifs at h with hc
    obtain ⟨x, hx, rfl⟩ := Option.map_eq_some_iff.mp h
    simp only [Bool.and_eq_true, Bool.or_eq_true, beq_iff_eq] at hc
    exact ⟨m, ms, s, ss, e, es, x, rfl, rfl, rfl, hc.1.1, hc.1.2, hc.2, hx, rfl⟩
  · cases h

theorem Except.map_eq_ok_inv {ε α β : Type} {f : α → β} {e : Except ε α} {b : β}
    (h : f <$> e = .ok b) : ∃ a, e = .ok a ∧ b = f a := by
  cases e with
  | error x => cases h
  | ok a => exact ⟨a, rfl, (Except.ok.inj h).symm⟩

theorem Except.bind_eq_ok_inv {ε α β : Type} {f : α → Except ε β} {e : Except ε α} {b : β}
    (h : e >>= f = .ok b) : ∃ a, e = .ok a ∧ f a = .ok b := by
  cases e with
  | error x => cases h
  | ok a => exact ⟨a, rfl, h⟩

theorem Piece.Laid.cons_inv {p : Position} {cs : List Char} {x : Piece} {ps : List Piece}
    (h : Piece.Laid p cs (x :: ps)) :
    ∃ g rest, cs = g ++ x.text ++ rest ∧ (∀ c ∈ g, Text.isBlank c = true) ∧
      (∀ c ∈ x.text, Text.isBlank c = false) ∧ x.span = ⟨p.walk g, p.walk (g ++ x.text)⟩ ∧
      Piece.Laid (p.walk (g ++ x.text)) rest ps := by
  cases h with
  | cons _ hg hx hspan hrest => exact ⟨_, _, rfl, hg, hx, hspan, hrest⟩

theorem Token.Laid.of_piece {p : Position} {cs : List Char} {x : Piece} {ps : List Piece}
    {index : Nat} {t : Token} {ts : List Token} (hl : Piece.Laid p cs (x :: ps))
    (ht : x.token index = .ok t) (hrest : ∀ {q cs'}, Piece.Laid q cs' ps → Token.Laid q cs' ts) :
    Token.Laid p cs (t :: ts) := by
  obtain ⟨g, rest, rfl, hg, hx, hspan, hl'⟩ := hl.cons_inv
  obtain ⟨htspan, hcov⟩ := Piece.token_covers ht hx
  exact .cons t x.text hg hcov (htspan.trans hspan) (hrest hl')

theorem Token.Laid.of_join {p : Position} {cs : List Char} {p₁ p₂ p₃ : Piece} {ps : List Piece}
    {t : Token} {ts : List Token} (hl : Piece.Laid p cs (p₁ :: p₂ :: p₃ :: ps))
    (hj : joinExponent p₁ p₂ p₃ = some t)
    (hrest : ∀ {q cs'}, Piece.Laid q cs' ps → Token.Laid q cs' ts) :
    Token.Laid p cs (t :: ts) := by
  obtain ⟨m, ms, s, ss, e, es, x, rfl, rfl, rfl, hm, hs, he, hx, rfl⟩ := joinExponent_eq_some hj
  obtain ⟨g₁, rest₁, rfl, hg₁, hm', hms, hl₁⟩ := hl.cons_inv
  obtain ⟨g₂, rest₂, rfl, hg₂, hs', -, hl₂⟩ := hl₁.cons_inv
  obtain ⟨g₃, rest₃, rfl, hg₃, he', hes, hl₃⟩ := hl₂.cons_inv
  simp only [Piece.text, Piece.span] at hm' hs' he' hms hes hl₃ ⊢
  have hw : g₁ ++ m.toList ++ (g₂ ++ s.toList ++ (g₃ ++ e.toList ++ rest₃)) =
      g₁ ++ (m.toList ++ g₂ ++ s.toList ++ g₃ ++ e.toList) ++ rest₃ := by
    simp only [List.append_assoc]
  have hlit : ((m.toList ++ g₂ ++ s.toList ++ g₃ ++ e.toList).filter fun c => !Text.isBlank c) =
      (m ++ s ++ e).toList := by
    have keep : ∀ {l : List Char}, (∀ c ∈ l, Text.isBlank c = false) →
        (l.filter fun c => !Text.isBlank c) = l :=
      fun hl => List.filter_eq_self.mpr fun c hc => by simp [hl c hc]
    have drop : ∀ {l : List Char}, (∀ c ∈ l, Text.isBlank c = true) →
        (l.filter fun c => !Text.isBlank c) = [] :=
      fun hl => List.filter_eq_nil_iff.mpr fun c hc => by simp [hl c hc]
    simp only [List.filter_append, keep hm', keep hs', keep he', drop hg₂, drop hg₃,
      List.append_nil, String.toList_append]
  have hstop : (p.walk (g₁ ++ m.toList ++ (g₂ ++ s.toList ++ g₃))).walk e.toList =
      p.walk (g₁ ++ (m.toList ++ g₂ ++ s.toList ++ g₃ ++ e.toList)) := by
    simp only [← Position.walk_append, List.append_assoc]
  rw [hw]
  refine .cons _ _ hg₁ ?_ ?_ ?_
  · simp only [Token.Covers, hlit, String.ofList_toList]
    exact ⟨Numeral.isNumber_join hm hs he, hx⟩
  · have hstart : p.walk g₁ ≤ ((p.walk (g₁ ++ m.toList)).walk (g₂ ++ s.toList)).walk g₃ :=
      calc p.walk g₁ ≤ (p.walk g₁).walk m.toList := Position.le_walk _ _
        _ = p.walk (g₁ ++ m.toList) := (Position.walk_append _ _ _).symm
        _ ≤ (p.walk (g₁ ++ m.toList)).walk (g₂ ++ s.toList) := Position.le_walk _ _
        _ ≤ _ := Position.le_walk _ _
    have hend : p.walk (g₁ ++ m.toList) ≤
        ((p.walk (g₁ ++ m.toList)).walk (g₂ ++ s.toList)).walk (g₃ ++ e.toList) :=
      (Position.le_walk _ _).trans (Position.le_walk _ _)
    rw [hms, hes, Span.merge_of_le hstart hend]
    simp only [List.append_assoc] at hstop ⊢
    rw [← hstop]
    simp only [Position.walk_append]
  · refine hrest ?_
    simpa only [Position.walk_append, List.append_assoc] using hl₃

theorem assemble_laid {index : Nat} {ps : List Piece} {ts : List Token}
    (h : assemble index ps = .ok ts) {p : Position} {cs : List Char} (hl : Piece.Laid p cs ps) :
    Token.Laid p cs ts := by
  fun_induction assemble index ps generalizing ts p cs with
  | case1 =>
    cases h
    cases hl with
    | nil hg => exact .nil hg
  | case2 index p₁ p₂ p₃ rest t hj ih =>
    obtain ⟨ts', hts', rfl⟩ := Except.map_eq_ok_inv h
    exact Token.Laid.of_join hl hj fun hl' => ih hts' hl'
  | case3 index p₁ p₂ p₃ rest hj ih =>
    obtain ⟨t, ht, h'⟩ := Except.bind_eq_ok_inv h
    obtain ⟨ts', hts', rfl⟩ := Except.map_eq_ok_inv h'
    exact Token.Laid.of_piece hl ht fun hl' => ih hts' hl'
  | case4 index x rest hshape ih =>
    obtain ⟨t, ht, h'⟩ := Except.bind_eq_ok_inv h
    obtain ⟨ts', hts', rfl⟩ := Except.map_eq_ok_inv h'
    exact Token.Laid.of_piece hl ht fun hl' => ih hts' hl'

theorem scan_laid {signs : List String} {source : String} {ts : List Token}
    (h : Token.scan signs source = .ok ts) : Token.Laid ⟨0, 0⟩ source.toList ts :=
  assemble_laid h ((Piece.words_laid source).cutAll signs)

namespace Token.Laid

variable {p : Position} {cs : List Char} {ts : List Token}

theorem start_le (h : Laid p cs ts) : ∀ t ∈ ts, p ≤ t.span.start ∧ t.span.start ≤ t.span.stop := by
  induction h with
  | nil => simp
  | @cons p g cs ts t w hg hcov hspan hrest ih =>
    intro t' ht'
    rcases List.mem_cons.mp ht' with rfl | ht'
    · rw [hspan, Position.walk_append]
      exact ⟨Position.le_walk _ _, Position.le_walk _ _⟩
    · obtain ⟨h₁, h₂⟩ := ih t' ht'
      exact ⟨(Position.le_walk _ _).trans h₁, h₂⟩

theorem pairwise (h : Laid p cs ts) : ts.Pairwise fun a b => a.span.stop ≤ b.span.start := by
  induction h with
  | nil => exact .nil
  | cons t w hg hcov hspan hrest ih =>
    refine List.Pairwise.cons (fun t' ht' => ?_) ih
    rw [hspan]
    exact (hrest.start_le t' ht').1

theorem mem (h : Laid p cs ts) (pre : List Char) (hp : p = (⟨0, 0⟩ : Position).walk pre) :
    ∀ t ∈ ts, ∃ before w after, pre ++ cs = before ++ w ++ after ∧
      t.span = ⟨(⟨0, 0⟩ : Position).walk before, (⟨0, 0⟩ : Position).walk (before ++ w)⟩ ∧
      t.Covers w := by
  induction h generalizing pre with
  | nil => simp
  | @cons p g cs ts t w hg hcov hspan hrest ih =>
    intro t' ht'
    rcases List.mem_cons.mp ht' with rfl | ht'
    · refine ⟨pre ++ g, w, cs, by simp only [List.append_assoc], ?_, hcov⟩
      rw [hspan, hp, ← Position.walk_append, ← Position.walk_append, List.append_assoc]
    · obtain ⟨before, w', after, hsplit, hspan', hcov'⟩ :=
        ih (pre ++ (g ++ w)) (by simp only [hp, Position.walk_append]) t' ht'
      exact ⟨before, w', after, by rw [← hsplit]; simp only [List.append_assoc], hspan', hcov'⟩

theorem cover (h : Laid p cs ts) :
    ∀ x ∈ cs.zip (p.marks cs), Text.isBlank x.1 = false →
      ∃ t ∈ ts, t.span.start ≤ x.2 ∧ x.2 < t.span.stop := by
  induction h with
  | nil hg =>
    intro x hx hb
    rw [hg x.1 (List.of_mem_zip hx).1] at hb
    cases hb
  | @cons p g cs ts t w hg hcov hspan hrest ih =>
    intro x hx hb
    rw [Position.marks_append, Position.marks_append,
      List.zip_append (by simp [Position.length_marks]),
      List.zip_append (by simp [Position.length_marks])] at hx
    rcases List.mem_append.mp hx with hx | hx
    · rcases List.mem_append.mp hx with hx | hx
      · rw [hg x.1 (List.of_mem_zip hx).1] at hb
        cases hb
      · obtain ⟨h₁, h₂⟩ := Position.mem_marks (List.of_mem_zip hx).2
        refine ⟨t, List.mem_cons_self, ?_⟩
        rw [hspan, Position.walk_append]
        exact ⟨h₁, h₂⟩
    · obtain ⟨t', ht', h'⟩ := ih x hx hb
      exact ⟨t', List.mem_cons_of_mem _ ht', h'⟩

end Token.Laid

theorem Span.line_eq_of_blank_free {pre w : List Char} (hw : ∀ c ∈ w, Text.isBlank c = false) :
    ((⟨0, 0⟩ : Position).walk pre).line = ((⟨0, 0⟩ : Position).walk (pre ++ w)).line := by
  rw [Position.walk_append, Position.walk_of_no_newline (Piece.newline_of_blank_free hw)]
  rfl

/-- Where the tokens of a text lie in it. Their spans run forward, follow one another without
overlapping, and together cover every character that is not a blank. A sign or a name covers
exactly its text, within one line. A number covers a literal of the number grammar that reads as its
value, with only blanks besides: a number joined from a mantissa with an exponent mark, a sign and
exponent digits also covers the blanks between them, line feeds included. -/
theorem scan_spans {signs : List String} {source : String} {ts : List Token}
    (h : Token.scan signs source = .ok ts) :
    (∀ t ∈ ts, t.span.start ≤ t.span.stop) ∧
    ts.Pairwise (fun a b => a.span.stop ≤ b.span.start) ∧
    (∀ t ∈ ts, ∀ s, t.value = .sign s →
      t.span.covered source.toList = s.toList ∧ t.span.start.line = t.span.stop.line) ∧
    (∀ t ∈ ts, ∀ n, t.value = .ident n →
      t.span.covered source.toList = n.toList ∧ t.span.start.line = t.span.stop.line) ∧
    (∀ t ∈ ts, ∀ x, t.value = .number x →
      Numeral.isNumber (String.ofList ((t.span.covered source.toList).filter (!Text.isBlank ·))) =
          true ∧
        finiteValue? (String.ofList ((t.span.covered source.toList).filter (!Text.isBlank ·))) =
          some x) ∧
    (∀ x ∈ Position.located source.toList, Text.isBlank x.1 = false →
      ∃ t ∈ ts, t.span.start ≤ x.2 ∧ x.2 < t.span.stop) := by
  have hl := scan_laid h
  -- each token covers the characters it is laid over
  have hmem : ∀ t ∈ ts, ∃ w, t.span.covered source.toList = w ∧ t.Covers w ∧
      ((∀ c ∈ w, Text.isBlank c = false) → t.span.start.line = t.span.stop.line) := by
    intro t ht
    obtain ⟨before, w, after, hsplit, hspan, hcov⟩ := hl.mem [] rfl t ht
    rw [List.nil_append] at hsplit
    refine ⟨w, by rw [hsplit, hspan, Span.covered_walk], hcov, fun hw => ?_⟩
    rw [hspan]
    exact Span.line_eq_of_blank_free hw
  refine ⟨fun t ht => (hl.start_le t ht).2, hl.pairwise, ?_, ?_, ?_, hl.cover⟩
  · intro t ht s hs
    obtain ⟨w, hw, hcov, hline⟩ := hmem t ht
    simp only [Token.Covers, hs] at hcov
    exact ⟨hw.trans hcov.1, hline hcov.2⟩
  · intro t ht n hn
    obtain ⟨w, hw, hcov, hline⟩ := hmem t ht
    simp only [Token.Covers, hn] at hcov
    exact ⟨hw.trans hcov.1, hline hcov.2⟩
  · intro t ht x hx
    obtain ⟨w, hw, hcov, -⟩ := hmem t ht
    simp only [Token.Covers, hx] at hcov
    rw [hw]
    exact hcov

theorem spans_of_joined_exponent :
    ∃ ts, Token.scan ["+"] "1e\n+\n5" = .ok ts ∧
      (∀ t ∈ ts, t.span.start ≤ t.span.stop) ∧
      ts.Pairwise (fun a b => a.span.stop ≤ b.span.start) ∧
      (∀ t ∈ ts, ∀ s, t.value = .sign s →
        t.span.covered "1e\n+\n5".toList = s.toList ∧ t.span.start.line = t.span.stop.line) ∧
      (∀ t ∈ ts, ∀ n, t.value = .ident n →
        t.span.covered "1e\n+\n5".toList = n.toList ∧ t.span.start.line = t.span.stop.line) ∧
      (∀ t ∈ ts, ∀ x, t.value = .number x →
        Numeral.isNumber (String.ofList ((t.span.covered "1e\n+\n5".toList).filter
            (!Text.isBlank ·))) = true ∧
          finiteValue? (String.ofList ((t.span.covered "1e\n+\n5".toList).filter
            (!Text.isBlank ·))) = some x) ∧
      (∀ x ∈ Position.located "1e\n+\n5".toList, Text.isBlank x.1 = false →
        ∃ t ∈ ts, t.span.start ≤ x.2 ∧ x.2 < t.span.stop) := by
  have h : (Token.scan ["+"] "1e\n+\n5").toOption.isSome = true := by decide +kernel
  cases hs : Token.scan ["+"] "1e\n+\n5" with
  | error e => rw [hs] at h; cases h
  | ok ts => exact ⟨ts, rfl, scan_spans hs⟩

theorem scan_joins_exponent_across_lines :
    ∃ t, Token.scan ["+"] "1e\n+\n5" = .ok [t] ∧ t.number?.isSome = true ∧
      t.span = ⟨⟨0, 0⟩, ⟨2, 1⟩⟩ ∧ t.span.start.line ≠ t.span.stop.line ∧
      t.span.covered "1e\n+\n5".toList = "1e\n+\n5".toList := by
  have h : ((Token.scan ["+"] "1e\n+\n5").toOption.map fun ts =>
      ts.map fun t => (t.number?.isSome, t.span)) = some [(true, ⟨⟨0, 0⟩, ⟨2, 1⟩⟩)] := by
    decide +kernel
  have hwalk : (⟨0, 0⟩ : Position).walk "1e\n+\n5".toList = ⟨2, 1⟩ := by decide
  have hcovered : Span.covered ⟨⟨0, 0⟩, ⟨2, 1⟩⟩ "1e\n+\n5".toList = "1e\n+\n5".toList := by
    have hc := Span.covered_walk [] "1e\n+\n5".toList []
    rwa [List.nil_append, List.append_nil, hwalk] at hc
  cases hs : Token.scan ["+"] "1e\n+\n5" with
  | error e => rw [hs] at h; cases h
  | ok ts =>
    rw [hs] at h
    rcases ts with _ | ⟨t, _ | ⟨t', ts'⟩⟩
    · simp [Except.toOption] at h
    · simp only [Except.toOption, Option.map_some, List.map_cons, List.map_nil, Option.some.injEq,
        List.cons.injEq, Prod.mk.injEq, and_true] at h
      obtain ⟨hn, hspan⟩ := h
      exact ⟨t, rfl, hn, hspan, by rw [hspan]; decide, by rw [hspan]; exact hcovered⟩
    · simp [Except.toOption] at h

end Mixfix
