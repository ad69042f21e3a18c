import Mathlib
import Mixfix.Proofs.Token.Cutting
import Mixfix.Proofs.Parse.Safety
import Mixfix.Proofs.Grammar.Derivation

namespace Mixfix

/-- The source form of a token value: a sign itself, a name, and a number as it prints. -/
def TokenValue.source : TokenValue → String
  | .sign s => s
  | .number x => Decimal.source x
  | .ident n => n

namespace Numeral

theorem isInteger_cons {c : Char} {ds : List Char} (hc : c.isDigit = true) (h0 : c ≠ '0')
    (hds : ∀ x ∈ ds, x.isDigit = true) : isInteger (c :: ds) = true := by
  unfold isInteger
  split
  · rfl
  · rename_i c' ds' _ heq
    obtain ⟨rfl, rfl⟩ := List.cons.inj heq
    simp only [Bool.and_eq_true, decide_eq_true_eq, List.all_eq_true]
    refine ⟨?_, hds⟩
    have h₁ := Char.isDigit_iff_toNat.mp hc
    have h₂ : c.toNat ≠ '0'.toNat := fun h => h0 (Char.toNat_inj.mp h)
    simp only [Char.le_def, UInt32.le_iff_toNat_le, Char.toNat_val]
    simp only [Char.reduceToNat] at h₁ h₂ ⊢
    omega
  · rename_i heq
    cases heq

theorem isInteger_toDigits (n : ℕ) : isInteger (Nat.toDigits 10 n) = true := by
  rcases Nat.eq_zero_or_pos n with rfl | hn
  · rw [Nat.toDigits_zero]
    rfl
  obtain ⟨c, ds, hcd, hc⟩ := Decimal.toDigits_head_ne_zero hn
  have hdigits := fun x hx => Decimal.isDigit_of_mem_toDigits (n := n) (c := x) hx
  rw [hcd] at hdigits ⊢
  exact isInteger_cons (hdigits c List.mem_cons_self) hc
    fun x hx => hdigits x (List.mem_cons_of_mem _ hx)

theorem isInteger_concat {ds : List Char} (h : isInteger ds = true) :
    ∃ ds' c, ds = ds' ++ [c] ∧ c.isDigit = true := by
  rcases List.eq_nil_or_concat ds with rfl | ⟨ds', c, rfl⟩
  · cases h
  · exact ⟨ds', c, List.concat_eq_append .., isInteger_digits h c (by simp)⟩

theorem isMantissa_of_isInteger {ds : List Char} (h : isInteger ds = true) :
    isMantissa ds = true := by
  have hdot : ∀ c ∈ ds, decide (c ≠ '.') = true := by
    intro c hc
    have hd := isInteger_digits h c hc
    simp only [ne_eq, decide_eq_true_eq]
    rintro rfl
    cases hd
  unfold isMantissa
  rw [List.takeWhile_eq_self_iff.mpr hdot, List.dropWhile_eq_nil_iff.mpr hdot]
  exact h

theorem isExponentTail_of_isInteger {ds : List Char} (h : isInteger ds = true) :
    isExponentTail ds = true := by
  have hd := isInteger_digits h
  unfold isExponentTail
  split
  · cases hd '+' List.mem_cons_self
  · cases hd '-' List.mem_cons_self
  · exact h

theorem notMark_of_isDigit {c : Char} (h : c.isDigit = true) :
    (decide (c ≠ 'e') && decide (c ≠ 'E')) = true := by
  simp only [ne_eq, Bool.and_eq_true, decide_eq_true_eq]
  constructor <;> rintro rfl <;> cases h

theorem isMarkedMantissa_of_digit {cs : List Char} {c : Char} (h : c.isDigit = true) :
    isMarkedMantissa (String.ofList (cs ++ [c])) = false := by
  have hmark := notMark_of_isDigit h
  simp only [ne_eq, Bool.and_eq_true, decide_eq_true_eq] at hmark
  unfold isMarkedMantissa
  rw [String.toList_ofList, List.reverse_concat]
  simp [hmark.1, hmark.2]

theorem isMarkedMantissa_mark {m : List Char} (hm : isInteger m = true) :
    isMarkedMantissa (String.ofList (m ++ ['e'])) = true := by
  unfold isMarkedMantissa
  rw [String.toList_ofList, List.reverse_concat]
  simp [isMantissa_of_isInteger hm]

theorem isExponentDigits_mark (m : List Char) :
    isExponentDigits (String.ofList (m ++ ['e'])) = false := by
  rw [isExponentDigits, String.toList_ofList, Bool.eq_false_iff]
  intro h
  nomatch isInteger_digits h 'e' (by simp)

theorem isExponentDigits_minus (m e : String) : isExponentDigits (m ++ "-" ++ e) = false := by
  rw [isExponentDigits, Bool.eq_false_iff]
  intro h
  nomatch isInteger_digits h '-' (by simp)

/-- The shapes of printed numbers: an integer, alone or with an exponent mark and an integer
exponent, negative or not. -/
inductive Printed : List Char → Prop
  | integer (m : List Char) : isInteger m = true → Printed m
  | exponent (m ex : List Char) : isInteger m = true → isInteger ex = true →
      Printed (m ++ 'e' :: ex)
  | negative (m ex : List Char) : isInteger m = true → isInteger ex = true →
      Printed (m ++ 'e' :: '-' :: ex)

theorem printed_source {x : Float} (hx : Decimal.isPlain x = true) :
    Printed (Decimal.source x).toList := by
  obtain ⟨d, hd, hpos⟩ := Decimal.source_eq_compact hx
  rw [hd, Decimal.compact_toList]
  split_ifs with h₀ h₆ hs
  · rw [List.append_nil]
    exact .integer _ (isInteger_toDigits _)
  · have hsig : 0 < d.significand := by
      rcases hpos with h | rfl
      · exact h
      · exact absurd rfl h₀
    obtain ⟨c, ds, hcd, hc⟩ := Decimal.toDigits_head_ne_zero hsig
    have hdigits := fun y hy => Decimal.isDigit_of_mem_toDigits (n := d.significand) (c := y) hy
    rw [hcd] at hdigits ⊢
    refine .integer _ (isInteger_cons (hdigits c List.mem_cons_self) hc fun y hy => ?_)
    rcases List.mem_append.mp hy with hy | hy
    · exact hdigits y (List.mem_cons_of_mem _ hy)
    · rw [(List.mem_replicate.mp hy).2]
      rfl
  · exact .exponent _ _ (isInteger_toDigits _) (isInteger_toDigits _)
  · exact .negative _ _ (isInteger_toDigits _) (isInteger_toDigits _)

theorem mem_exponent {m ex : List Char} (hm : ∀ c ∈ m, c.isDigit = true)
    (hex : ∀ c ∈ ex, c.isDigit = true) : ∀ c ∈ m ++ 'e' :: ex, c.isDigit = true ∨ c = 'e' := by
  intro c hc
  simp only [List.mem_append, List.mem_cons] at hc
  rcases hc with hc | rfl | hc
  · exact .inl (hm c hc)
  · exact .inr rfl
  · exact .inl (hex c hc)

theorem mem_negative {m ex : List Char} (hm : ∀ c ∈ m, c.isDigit = true)
    (hex : ∀ c ∈ ex, c.isDigit = true) :
    ∀ c ∈ m ++ 'e' :: '-' :: ex, c.isDigit = true ∨ c = 'e' ∨ c = '-' := by
  intro c hc
  simp only [List.mem_append, List.mem_cons] at hc
  rcases hc with hc | rfl | rfl | hc
  · exact .inl (hm c hc)
  · exact .inr (.inl rfl)
  · exact .inr (.inr rfl)
  · exact .inl (hex c hc)

theorem count_negative {m ex : List Char} (hm : ∀ c ∈ m, c.isDigit = true)
    (hex : ∀ c ∈ ex, c.isDigit = true) : (m ++ 'e' :: '-' :: ex).count '-' = 1 := by
  have hnm : '-' ∉ m := fun h => nomatch hm '-' h
  have hnex : '-' ∉ ex := fun h => nomatch hex '-' h
  rw [List.count_append, List.count_eq_zero.mpr hnm]
  simp [List.count_eq_zero.mpr hnex]

theorem isNumber_integer {m : List Char} (hm : isInteger m = true) :
    isNumber (String.ofList m) = true := by
  have hmark := fun c hc => notMark_of_isDigit (isInteger_digits hm c hc)
  unfold isNumber
  simp only [String.toList_ofList]
  rw [List.takeWhile_eq_self_iff.mpr hmark, List.dropWhile_eq_nil_iff.mpr hmark,
    isMantissa_of_isInteger hm]
  rfl

theorem isNumber_exponent {m ex : List Char} (hm : isInteger m = true) (hex : isInteger ex = true) :
    isNumber (String.ofList (m ++ 'e' :: ex)) = true := by
  have hmark := fun c hc => notMark_of_isDigit (isInteger_digits hm c hc)
  unfold isNumber
  simp only [String.toList_ofList]
  rw [List.takeWhile_append_of_pos hmark, List.dropWhile_append_of_pos hmark,
    List.takeWhile_cons, List.dropWhile_cons]
  simp [isMantissa_of_isInteger hm, isExponentTail_of_isInteger hex]

namespace Printed

variable {w : List Char}

theorem concat (h : Printed w) : ∃ w' c, w = w' ++ [c] ∧ c.isDigit = true := by
  cases h with
  | integer m hm => exact isInteger_concat hm
  | exponent m ex hm hex =>
    obtain ⟨ex', c, rfl, hc⟩ := isInteger_concat hex
    exact ⟨m ++ 'e' :: ex', c, by simp, hc⟩
  | negative m ex hm hex =>
    obtain ⟨ex', c, rfl, hc⟩ := isInteger_concat hex
    exact ⟨m ++ 'e' :: '-' :: ex', c, by simp, hc⟩

theorem not_marked (h : Printed w) : isMarkedMantissa (String.ofList w) = false := by
  obtain ⟨w', c, rfl, hc⟩ := h.concat
  exact isMarkedMantissa_of_digit hc

theorem ne_nil (h : Printed w) : w ≠ [] := by
  obtain ⟨w', c, rfl, -⟩ := h.concat
  simp

theorem chars (h : Printed w) : ∀ c ∈ w, c.isDigit = true ∨ c = 'e' ∨ c = '-' := by
  intro c hc
  cases h with
  | integer m hm => exact .inl (isInteger_digits hm c hc)
  | exponent m ex hm hex =>
    exact (mem_exponent (isInteger_digits hm) (isInteger_digits hex) c hc).imp_right .inl
  | negative m ex hm hex => exact mem_negative (isInteger_digits hm) (isInteger_digits hex) c hc

theorem not_blank (h : Printed w) : ∀ c ∈ w, Text.isBlank c = false := by
  intro c hc
  rcases h.chars c hc with hd | rfl | rfl
  · have := Char.isDigit_iff_toNat.mp hd
    simp only [Char.reduceToNat] at this
    simp only [Text.isBlank, Bool.or_eq_false_iff, Bool.and_eq_false_iff, beq_eq_false_iff_ne,
      decide_eq_false_iff_not, not_le, ne_eq]
    omega
  · decide
  · decide

end Printed

end Numeral

theorem Decimal.isFinite_of_isPlain {x : Float} (hx : Decimal.isPlain x = true) :
    Decimal.isFinite x = true := by
  rcases Decimal.isPlain_iff.mp hx with h | ⟨b, h⟩ <;> simp [Decimal.isFinite, h]

theorem finiteValue?_source {x : Float} (hx : Decimal.isPlain x = true) :
    finiteValue? (Decimal.source x) = some x := by
  rw [finiteValue?, Decimal.read?_source hx]
  exact Option.filter_eq_some_iff.mpr ⟨rfl, Decimal.isFinite_of_isPlain hx⟩

/-- The pieces that cutting makes of a token's source form, as assembling reads them: a sign
alone, a name or a number left whole, or a number cut at the `-` of its exponent. -/
inductive Reprint : TokenValue → List Piece → Prop
  | sign (s : String) (sp : Span) : Reprint (.sign s) [.sign s sp]
  | ident (n : String) (sp : Span) : Numeral.isNumber n = false →
      (n.toList.head?.map Char.isDigit).getD false = false → Reprint (.ident n) [.residue n sp]
  | number (x : Float) (sp : Span) : Numeral.isNumber (Decimal.source x) = true →
      Numeral.isMarkedMantissa (Decimal.source x) = false →
      finiteValue? (Decimal.source x) = some x → Reprint (.number x) [.residue (Decimal.source x) sp]
  | joined (x : Float) (m e : String) (sp₁ sp₂ sp₃ : Span) : Numeral.isMarkedMantissa m = true →
      Numeral.isExponentDigits e = true → Numeral.isExponentDigits m = false →
      m ++ "-" ++ e = Decimal.source x → finiteValue? (m ++ "-" ++ e) = some x →
      Reprint (.number x) [.residue m sp₁, .sign "-" sp₂, .residue e sp₃]

section Rescan

variable {signs : List String}
  (hsigns : ∀ s ∈ signs, s.toList ≠ [] ∧ ∀ c ∈ s.toList, c.isDigit = false ∧ c ≠ 'e')
include hsigns

theorem not_infix_of_digits {w : List Char} (hw : ∀ c ∈ w, c.isDigit = true ∨ c = 'e') :
    ∀ a ∈ signs, a.toList ≠ [] ∧ ¬ a.toList <:+: w := by
  intro a ha
  obtain ⟨hne, hchars⟩ := hsigns a ha
  refine ⟨hne, fun hi => ?_⟩
  obtain ⟨c, cs, hc⟩ := List.ne_nil_iff_exists_cons.mp hne
  have hmem : c ∈ a.toList := hc ▸ List.mem_cons_self
  obtain ⟨hd, he⟩ := hchars c hmem
  rcases hw c (hi.mem hmem) with h | h
  · rw [hd] at h
    cases h
  · exact he h

theorem eq_minus_of_infix {w : List Char} (hw : ∀ c ∈ w, c.isDigit = true ∨ c = 'e' ∨ c = '-')
    (hcount : w.count '-' ≤ 1) {a : String} (ha : a ∈ signs) (hi : a.toList <:+: w) :
    a = "-" := by
  obtain ⟨hne, hchars⟩ := hsigns a ha
  have hminus : ∀ c ∈ a.toList, c = '-' := by
    intro c hc
    obtain ⟨hd, he⟩ := hchars c hc
    rcases hw c (hi.mem hc) with h | h | h
    · rw [hd] at h
      cases h
    · exact absurd h he
    · exact h
  have hlen : a.toList.length ≤ 1 :=
    calc a.toList.length = a.toList.count '-' := (List.count_eq_length.mpr fun c hc => by
            rw [hminus c hc]).symm
      _ ≤ w.count '-' := hi.count_le '-'
      _ ≤ 1 := hcount
  obtain ⟨c, cs, hc⟩ := List.ne_nil_iff_exists_cons.mp hne
  rw [hc, List.length_cons] at hlen
  obtain rfl : cs = [] := List.eq_nil_of_length_eq_zero (by omega)
  rw [← String.toList_inj, hc, hminus c (by rw [hc]; exact List.mem_cons_self)]
  rfl

theorem cutAll_digits {B : List String} (hB : B ⊆ signs) {w : String} (hw : w.toList ≠ [])
    (hc : ∀ c ∈ w.toList, c.isDigit = true ∨ c = 'e') (sp : Span) :
    ∃ sp', cutAll B [.residue w sp] = [.residue w sp'] :=
  cutAll_residue hw (fun a ha => not_infix_of_digits hsigns hc a (hB ha)) sp

theorem reprint_whole {x : Float} (hx : Decimal.isPlain x = true)
    (hw : ∀ c ∈ (Decimal.source x).toList, c.isDigit = true ∨ c = 'e')
    (hnum : Numeral.isNumber (Decimal.source x) = true) (sp : Span) :
    Reprint (.number x) (cutAll signs [.residue (Decimal.source x) sp]) := by
  have hp := Numeral.printed_source hx
  obtain ⟨sp', hcut⟩ := cutAll_digits hsigns (List.Subset.refl _) hp.ne_nil hw sp
  rw [hcut]
  refine .number x sp' hnum ?_ (finiteValue?_source hx)
  simpa using hp.not_marked

section Negative

variable {m ex : List Char} (hm : Numeral.isInteger m = true) (hex : Numeral.isInteger ex = true)
include hm hex

theorem cutAll_negative_whole {B : List String} (hB : B ⊆ signs) (hnB : "-" ∉ B) {w : String}
    (hw : w.toList = m ++ 'e' :: '-' :: ex) (sp : Span) :
    ∃ sp', cutAll B [.residue w sp] = [.residue w sp'] := by
  have hdm := Numeral.isInteger_digits hm
  have hdex := Numeral.isInteger_digits hex
  refine cutAll_residue (by simp [hw]) (fun a ha => ⟨(hsigns a (hB ha)).1, fun hi => hnB ?_⟩) sp
  rw [hw] at hi
  rw [← eq_minus_of_infix hsigns (Numeral.mem_negative hdm hdex)
    (Numeral.count_negative hdm hdex).le (hB ha) hi]
  exact ha

theorem cutAll_negative (hminus : "-" ∈ signs) {w : String} (hw : w.toList = m ++ 'e' :: '-' :: ex)
    (sp : Span) : ∃ sp₁ sp₂ sp₃, cutAll signs [.residue w sp] =
      [.residue (String.ofList (m ++ ['e'])) sp₁, .sign "-" sp₂, .residue (String.ofList ex) sp₃] := by
  have hdm := Numeral.isInteger_digits hm
  have hdex := Numeral.isInteger_digits hex
  have hexne : ex ≠ [] := by
    rintro rfl
    cases hex
  -- the signs before the first `-` leave the number whole, and those after it each of its parts
  obtain ⟨A, B, hAB, hA⟩ := List.eq_append_cons_of_mem hminus
  have hAs : A ⊆ signs := by
    rw [hAB]
    exact List.subset_append_left _ _
  have hBs : B ⊆ signs := by
    rw [hAB]
    exact fun a ha => List.mem_append_right _ (List.mem_cons_of_mem _ ha)
  obtain ⟨sp₀, h₀⟩ := cutAll_negative_whole hsigns hm hex hAs hA hw sp
  obtain ⟨sp₁, sp₂, sp₃, hcut⟩ := Piece.cut_minus (a := m ++ ['e']) (b := ex)
    (by simpa using fun h => nomatch hdm '-' h) (fun h => nomatch hdex '-' h) (by simp) hexne sp₀
  obtain ⟨sp₄, h₄⟩ := cutAll_digits hsigns hBs (w := String.ofList (m ++ ['e'])) (by simp)
    (by simpa using Numeral.mem_exponent hdm fun c hc => (List.not_mem_nil hc).elim) sp₁
  obtain ⟨sp₅, h₅⟩ := cutAll_digits hsigns hBs (w := String.ofList ex) (by simpa using hexne)
    (by simpa using fun c hc => .inl (hdex c hc)) sp₃
  have hparts : String.ofList (m ++ ['e'] ++ '-' :: ex) = w := by
    rw [← String.toList_inj]
    simp [hw]
  rw [hparts] at hcut
  refine ⟨sp₄, sp₂, sp₅, ?_⟩
  rw [hAB, cutAll_append, h₀, cutAll_cons, List.flatMap_singleton, hcut, cutAll_eq_flatMap]
  simp only [List.flatMap_cons, List.flatMap_nil, List.append_nil, h₄, h₅, cutAll_sign]
  rfl

theorem reprint_negative {x : Float} (hx : Decimal.isPlain x = true)
    (hsrc : (Decimal.source x).toList = m ++ 'e' :: '-' :: ex) (sp : Span) :
    Reprint (.number x) (cutAll signs [.residue (Decimal.source x) sp]) := by
  have hmarked := Numeral.isMarkedMantissa_mark hm
  have hdigits : Numeral.isExponentDigits (String.ofList ex) = true := by
    simpa [Numeral.isExponentDigits] using hex
  have hjoin : String.ofList (m ++ ['e']) ++ "-" ++ String.ofList ex = Decimal.source x := by
    rw [← String.toList_inj]
    simp [hsrc]
  by_cases hminus : "-" ∈ signs
  · obtain ⟨sp₁, sp₂, sp₃, h⟩ := cutAll_negative hsigns hm hex hminus hsrc sp
    rw [h]
    exact .joined x _ _ sp₁ sp₂ sp₃ hmarked hdigits (Numeral.isExponentDigits_mark m) hjoin
      (by rw [hjoin]; exact finiteValue?_source hx)
  · obtain ⟨sp', h⟩ := cutAll_negative_whole hsigns hm hex (List.Subset.refl _) hminus hsrc sp
    rw [h]
    refine .number x sp' ?_ ?_ (finiteValue?_source hx)
    · rw [← hjoin]
      exact Numeral.isNumber_join hmarked (.inr rfl) hdigits
    · simpa using (Numeral.printed_source hx).not_marked

end Negative

theorem reprint_number {x : Float} (hx : Decimal.isPlain x = true) (sp : Span) :
    Reprint (.number x) (cutAll signs [.residue (Decimal.source x) sp]) := by
  have hp := Numeral.printed_source hx
  have htext : ∀ w, (Decimal.source x).toList = w → Decimal.source x = String.ofList w :=
    fun w hw => by rw [← hw, String.ofList_toList]
  generalize hw : (Decimal.source x).toList = w at hp
  cases hp with
  | integer _ hm =>
    have hchars : ∀ c ∈ w, c.isDigit = true ∨ c = 'e' :=
      fun c hc => .inl (Numeral.isInteger_digits hm c hc)
    refine reprint_whole hsigns hx (by rw [hw]; exact hchars) ?_ sp
    rw [htext _ hw]
    exact Numeral.isNumber_integer hm
  | exponent m ex hm hex =>
    have hchars :=
      Numeral.mem_exponent (Numeral.isInteger_digits hm) (Numeral.isInteger_digits hex)
    refine reprint_whole hsigns hx (by rw [hw]; exact hchars) ?_ sp
    rw [htext _ hw]
    exact Numeral.isNumber_exponent hm hex
  | negative m ex hm hex => exact reprint_negative hsigns hm hex hx hw sp

theorem reprint_of_rescannable {v : TokenValue} (hv : v.Rescannable signs) (sp : Span) :
    Reprint v (cutAll signs [.residue v.source sp]) := by
  cases v with
  | sign s =>
    obtain ⟨hne, -, A, B, rfl, hA⟩ := hv
    obtain ⟨sp', h⟩ := cutAll_residue_sign hne
      (fun a ha => ⟨(hsigns a (List.mem_append_left _ ha)).1, hA a ha⟩) sp
    rw [TokenValue.source, h]
    exact .sign s sp'
  | ident n =>
    obtain ⟨hne, -, hno, hnum, hhead⟩ := hv
    obtain ⟨sp', h⟩ := cutAll_residue hne (fun a ha => ⟨(hsigns a ha).1, hno a ha⟩) sp
    rw [TokenValue.source, h]
    exact .ident n sp' hnum hhead
  | number x => exact reprint_number hsigns hv sp

end Rescan

/-- Whether a name, a sign and a number, printed in a row, scan as one number: the name is a
mantissa with its exponent mark, the sign is `+` or `-`, the number prints as exponent digits and
the three make a finite value. -/
def TokenValue.joinsExponent : TokenValue → TokenValue → TokenValue → Bool
  | .ident n, .sign s, .number x =>
    Numeral.isMarkedMantissa n && (s == "+" || s == "-") &&
      Numeral.isExponentDigits (Decimal.source x) &&
      (finiteValue? (n ++ s ++ Decimal.source x)).isSome
  | _, _, _ => false

/-- Whether some three tokens in a row, printed, scan as one number. -/
def TokenValue.hasExponentJoin : List TokenValue → Bool
  | a :: b :: c :: rest => joinsExponent a b c || hasExponentJoin (b :: c :: rest)
  | _ => false

theorem TokenValue.hasExponentJoin_tail {a : TokenValue} {vs : List TokenValue}
    (h : hasExponentJoin (a :: vs) = false) : hasExponentJoin vs = false := by
  match vs, h with
  | [], _ => rfl
  | [_], _ => rfl
  | b :: c :: rest, h =>
    simp only [hasExponentJoin, Bool.or_eq_false_iff] at h
    exact h.2

theorem TokenValue.hasExponentJoin_cons {a : TokenValue} {vs : List TokenValue}
    (h : hasExponentJoin (a :: vs) = true) :
    (∃ b c rest, vs = b :: c :: rest ∧ joinsExponent a b c = true) ∨ hasExponentJoin vs = true := by
  match vs, h with
  | b :: c :: rest, h =>
    simp only [hasExponentJoin, Bool.or_eq_true] at h
    exact h.imp_left fun h => ⟨b, c, rest, rfl, h⟩

theorem TokenValue.joinsExponent_shape {a b c : TokenValue} (h : joinsExponent a b c = true) :
    ∃ n s x, a = .ident n ∧ b = .sign s ∧ c = .number x := by
  unfold joinsExponent at h
  split at h
  · exact ⟨_, _, _, rfl, rfl, rfl⟩
  · cases h

theorem joinExponent_of_unmarked {m : String} {ms : Span} (h : Numeral.isMarkedMantissa m = false)
    (p₂ p₃ : Piece) : joinExponent (.residue m ms) p₂ p₃ = none := by
  cases p₂ <;> cases p₃ <;> simp [joinExponent, h]

theorem isExponentDigits_of_head {n : String}
    (h : (n.toList.head?.map Char.isDigit).getD false = false) : Numeral.isExponentDigits n = false := by
  rw [Numeral.isExponentDigits, Bool.eq_false_iff]
  intro hi
  rcases hn : n.toList with _ | ⟨c, cs⟩ <;> rw [hn] at hi
  · cases hi
  · rw [hn] at h
    simp [Numeral.isInteger_digits hi c List.mem_cons_self] at h

theorem joinExponent_eq_none {n s : String} {x : Float} {sp₁ sp₂ sp₃ : Span}
    (h : TokenValue.joinsExponent (.ident n) (.sign s) (.number x) = false) :
    joinExponent (.residue n sp₁) (.sign s sp₂) (.residue (Decimal.source x) sp₃) = none := by
  dsimp only [joinExponent]
  split_ifs with hc
  · cases hv : finiteValue? (n ++ s ++ Decimal.source x) with
    | none => rfl
    | some y => simp [TokenValue.joinsExponent, hc, hv] at h
  · rfl

theorem joinExponent_of_joins {n s : String} {x : Float}
    (h : TokenValue.joinsExponent (.ident n) (.sign s) (.number x) = true) (sp₁ sp₂ sp₃ : Span) :
    ∃ y, joinExponent (.residue n sp₁) (.sign s sp₂) (.residue (Decimal.source x) sp₃) =
      some ⟨.number y, sp₁.merge sp₃⟩ := by
  simp only [TokenValue.joinsExponent, Bool.and_eq_true] at h
  obtain ⟨hc, hsome⟩ := h
  obtain ⟨y, hy⟩ := Option.isSome_iff_exists.mp hsome
  refine ⟨y, ?_⟩
  dsimp only [joinExponent]
  rw [if_pos (by simpa only [Bool.and_eq_true] using hc), hy]
  rfl

theorem joinExponent_ident {n : String} {sp : Span} {vs : List TokenValue}
    {blocks : List (List Piece)} (hr : List.Forall₂ Reprint vs blocks)
    (hj : ∀ s x rest, vs = .sign s :: .number x :: rest →
      TokenValue.joinsExponent (.ident n) (.sign s) (.number x) = false)
    {p₂ p₃ : Piece} {rest : List Piece}
    (h : blocks.flatten = p₂ :: p₃ :: rest) : joinExponent (.residue n sp) p₂ p₃ = none := by
  cases hr with
  | nil => simp at h
  | cons r₂ hr' =>
    cases r₂ with
    | sign s sp₂ =>
      cases hr' with
      | nil => simp at h
      | cons r₃ _ =>
        simp only [List.flatten_cons, List.cons_append, List.cons.injEq] at h
        cases r₃ with
        | sign s' sp₃ =>
          obtain ⟨rfl, rfl, -⟩ := h
          rfl
        | ident n' sp₃ _ hhead =>
          obtain ⟨rfl, rfl, -⟩ := h
          simp [joinExponent, isExponentDigits_of_head hhead]
        | number x sp₃ =>
          obtain ⟨rfl, rfl, -⟩ := h
          exact joinExponent_eq_none (hj s x _ rfl)
        | joined x m e sp₃ sp₄ sp₅ _ _ hm =>
          obtain ⟨rfl, rfl, -⟩ := h
          simp [joinExponent, hm]
    | ident n' sp₂ =>
      simp only [List.flatten_cons, List.singleton_append, List.cons.injEq] at h
      obtain ⟨rfl, -⟩ := h
      rfl
    | number x sp₂ =>
      simp only [List.flatten_cons, List.singleton_append, List.cons.injEq] at h
      obtain ⟨rfl, -⟩ := h
      rfl
    | joined x m e sp₂ sp₃ sp₄ =>
      simp only [List.flatten_cons, List.cons_append, List.cons.injEq] at h
      obtain ⟨rfl, -⟩ := h
      rfl

theorem assemble_of_token {index : Nat} {p : Piece} {rest : List Piece} {t : Token}
    (h : ∀ p₂ p₃ rest', rest = p₂ :: p₃ :: rest' → joinExponent p p₂ p₃ = none)
    (ht : p.token index = .ok t) :
    assemble index (p :: rest) = (t :: ·) <$> assemble (index + 1) rest := by
  match rest, h with
  | [], _ => rw [assemble.eq_3 _ _ _ (by simp), ht]; rfl
  | [p₂], _ => rw [assemble.eq_3 _ _ _ (by simp), ht]; rfl
  | p₂ :: p₃ :: rest', h => rw [assemble.eq_2, h p₂ p₃ rest' rfl, ht]; rfl

theorem classify_ident {n : String} (hnum : Numeral.isNumber n = false)
    (hhead : (n.toList.head?.map Char.isDigit).getD false = false) (sp : Span) (index : Nat) :
    classify n sp index = .ok ⟨.ident n, sp⟩ := by
  simp [classify, hnum, hhead]

theorem classify_number {text : String} {x : Float} (hnum : Numeral.isNumber text = true)
    (hval : finiteValue? text = some x) (sp : Span) (index : Nat) :
    classify text sp index = .ok ⟨.number x, sp⟩ := by
  simp [classify, hnum, hval]

theorem assemble_block {v : TokenValue} {block : List Piece} (hv : Reprint v block)
    {rest : List Piece}
    (hnone : ∀ n sp p₂ p₃ rest', v = .ident n → rest = p₂ :: p₃ :: rest' →
      joinExponent (.residue n sp) p₂ p₃ = none) (index : Nat) :
    ∃ t : Token, t.value = v ∧
      assemble index (block ++ rest) = (t :: ·) <$> assemble (index + 1) rest := by
  cases hv with
  | sign s sp => exact ⟨_, rfl, assemble_of_token (fun _ _ _ _ => rfl) rfl⟩
  | ident n sp hnum hhead =>
    exact ⟨_, rfl, assemble_of_token (fun _ _ _ h => hnone n sp _ _ _ rfl h)
      (classify_ident hnum hhead sp index)⟩
  | number x sp hnum hmark hval =>
    exact ⟨_, rfl, assemble_of_token (fun _ _ _ _ => joinExponent_of_unmarked hmark _ _)
      (classify_number hnum hval sp index)⟩
  | joined x m e sp₁ sp₂ sp₃ hm he _ _ hval =>
    have hjoin : joinExponent (.residue m sp₁) (.sign "-" sp₂) (.residue e sp₃) =
        some ⟨.number x, sp₁.merge sp₃⟩ := by
      simp [joinExponent, hm, he, hval]
    refine ⟨⟨.number x, sp₁.merge sp₃⟩, rfl, ?_⟩
    rw [List.cons_append, List.cons_append, List.cons_append, List.nil_append, assemble.eq_2,
      hjoin]

theorem assemble_reprint {vs : List TokenValue} {blocks : List (List Piece)}
    (hr : List.Forall₂ Reprint vs blocks) :
    TokenValue.hasExponentJoin vs = false →
      ∀ index, ∃ ts, assemble index blocks.flatten = .ok ts ∧ ts.map (·.value) = vs := by
  induction hr with
  | nil =>
    intro _ index
    exact ⟨[], by rw [List.flatten_nil, assemble.eq_1], rfl⟩
  | @cons v block vs blocks hv hrest ih =>
    intro hj index
    obtain ⟨ts, hts, hvals⟩ := ih (TokenValue.hasExponentJoin_tail hj) (index + 1)
    have hnone : ∀ n sp p₂ p₃ rest', v = .ident n → blocks.flatten = p₂ :: p₃ :: rest' →
        joinExponent (.residue n sp) p₂ p₃ = none := by
      rintro n sp p₂ p₃ rest' rfl h
      refine joinExponent_ident hrest (fun s x rest hvs => ?_) h
      subst hvs
      simp only [TokenValue.hasExponentJoin, Bool.or_eq_false_iff] at hj
      exact hj.1
    obtain ⟨t, ht, hstep⟩ := assemble_block hv hnone index
    rw [List.flatten_cons, hstep, hts]
    exact ⟨_, rfl, by simp [ht, hvals]⟩

theorem assemble_reprint_join {vs : List TokenValue} {blocks : List (List Piece)}
    (hr : List.Forall₂ Reprint vs blocks) :
    TokenValue.hasExponentJoin vs = true →
      ∀ index ts, assemble index blocks.flatten = .ok ts → ts.map (·.value) ≠ vs := by
  induction hr with
  | nil => exact fun h => nomatch h
  | @cons v block vs blocks hv hrest ih =>
    intro hj index ts hts
    by_cases hhead : ∃ b c rest, vs = b :: c :: rest ∧ TokenValue.joinsExponent v b c = true
    · obtain ⟨b, c, rest, rfl, hjoin⟩ := hhead
      obtain ⟨n, s, x, rfl, rfl, rfl⟩ := TokenValue.joinsExponent_shape hjoin
      have hdigits : Numeral.isExponentDigits (Decimal.source x) = true := by
        simp only [TokenValue.joinsExponent, Bool.and_eq_true] at hjoin
        exact hjoin.1.2
      cases hv with
      | ident _ sp _ _ =>
        obtain _ | ⟨hsign, hrest₂⟩ := hrest
        obtain _ | ⟨hnumber, -⟩ := hrest₂
        cases hsign with
        | sign _ sp₂ =>
          cases hnumber with
          | number _ sp₃ _ _ _ =>
            obtain ⟨y, hy⟩ := joinExponent_of_joins hjoin sp sp₂ sp₃
            simp only [List.flatten_cons, List.singleton_append] at hts
            rw [assemble.eq_2, hy] at hts
            obtain ⟨ts', -, rfl⟩ := Except.map_eq_ok_inv hts
            simp
          | joined _ m e _ _ _ _ _ _ hsrc _ =>
            rw [← hsrc, Numeral.isExponentDigits_minus] at hdigits
            cases hdigits
    · have htail : TokenValue.hasExponentJoin vs = true :=
        (TokenValue.hasExponentJoin_cons hj).resolve_left hhead
      have hnone : ∀ n sp p₂ p₃ rest', v = .ident n → blocks.flatten = p₂ :: p₃ :: rest' →
          joinExponent (.residue n sp) p₂ p₃ = none := by
        rintro n sp p₂ p₃ rest' rfl h
        refine joinExponent_ident hrest (fun s x rest hvs => ?_) h
        rw [Bool.eq_false_iff]
        exact fun hjoin => hhead ⟨_, _, rest, hvs, hjoin⟩
      obtain ⟨t, ht, hstep⟩ := assemble_block hv hnone index
      rw [List.flatten_cons, hstep] at hts
      obtain ⟨ts', hts', rfl⟩ := Except.map_eq_ok_inv hts
      intro heq
      simp only [List.map_cons, List.cons.injEq] at heq
      exact ih htail (index + 1) ts' hts' heq.2

theorem blankSplit_append {w : List Char} (hw : ∀ c ∈ w, Text.isBlank c = false) :
    ∀ (start pos : Position) (word rest : List Char), ∃ pos',
      blankSplit start pos word (w ++ rest) = blankSplit start pos' (w.reverse ++ word) rest := by
  induction w with
  | nil =>
    intro start pos word rest
    exact ⟨pos, rfl⟩
  | cons c w ih =>
    intro start pos word rest
    obtain ⟨pos', h⟩ := ih (fun x hx => hw x (List.mem_cons_of_mem _ hx)) start (pos.shift 1)
      (c :: word) rest
    refine ⟨pos', ?_⟩
    rw [List.cons_append, blankSplit, if_neg (by simp [hw c List.mem_cons_self]), h]
    simp

theorem blankSplit_intercalate : ∀ (ws : List (List Char)),
    (∀ w ∈ ws, w ≠ [] ∧ ∀ c ∈ w, Text.isBlank c = false) → ∀ start : Position,
      List.Forall₂ (fun w p => ∃ sp, p = .residue (String.ofList w) sp) ws
        (blankSplit start start [] ([' '].intercalate ws))
  | [], _, start => by simp [blankSplit, Piece.residueAt]
  | [w], h, start => by
    obtain ⟨hne, hw⟩ := h w List.mem_cons_self
    obtain ⟨pos', hsplit⟩ := blankSplit_append hw start start [] []
    rw [List.append_nil, List.append_nil] at hsplit
    rw [List.intercalate_singleton, hsplit, blankSplit, List.reverse_reverse,
      Piece.residueAt_of_ne_nil _ hne]
    exact .cons ⟨_, rfl⟩ .nil
  | w :: w' :: ws, h, start => by
    obtain ⟨hne, hw⟩ := h w List.mem_cons_self
    obtain ⟨pos', hsplit⟩ :=
      blankSplit_append hw start start [] (' ' :: [' '].intercalate (w' :: ws))
    rw [List.intercalate_cons_cons, List.append_assoc, List.singleton_append, hsplit,
      List.append_nil, blankSplit, if_pos (by decide), List.reverse_reverse,
      Piece.residueAt_of_ne_nil _ hne, List.singleton_append]
    exact .cons ⟨_, rfl⟩
      (blankSplit_intercalate (w' :: ws) (fun v hv => h v (List.mem_cons_of_mem _ hv)) _)

theorem words_intercalate (ss : List String)
    (h : ∀ s ∈ ss, s.toList ≠ [] ∧ ∀ c ∈ s.toList, Text.isBlank c = false) :
    List.Forall₂ (fun s p => ∃ sp, p = .residue s sp) ss (words (" ".intercalate ss)) := by
  have hsplit := blankSplit_intercalate (ss.map String.toList) (by simpa using h) ⟨0, 0⟩
  rw [words, String.toList_intercalate]
  simpa [List.forall₂_map_left_iff] using hsplit

theorem TokenValue.Rescannable.source_word {signs : List String} {v : TokenValue}
    (hv : v.Rescannable signs) :
    v.source.toList ≠ [] ∧ ∀ c ∈ v.source.toList, Text.isBlank c = false := by
  cases v with
  | sign s => exact ⟨hv.1, hv.2.1⟩
  | ident n => exact ⟨hv.1, hv.2.1⟩
  | number x =>
    have hp := Numeral.printed_source hv
    exact ⟨hp.ne_nil, hp.not_blank⟩

section Joined

variable {signs : List String}
  (hsigns : ∀ s ∈ signs, s.toList ≠ [] ∧ ∀ c ∈ s.toList, c.isDigit = false ∧ c ≠ 'e')
  {vs : List TokenValue} (hv : ∀ v ∈ vs, v.Rescannable signs)
include hsigns hv

theorem scan_intercalate_blocks : ∃ blocks, List.Forall₂ Reprint vs blocks ∧
    Token.scan signs (" ".intercalate (vs.map TokenValue.source)) = assemble 0 blocks.flatten := by
  have hwords := words_intercalate (vs.map TokenValue.source) (by
    simpa using fun v hv' => (hv v hv').source_word)
  rw [List.forall₂_map_left_iff] at hwords
  refine ⟨(words (" ".intercalate (vs.map TokenValue.source))).map fun p => cutAll signs [p],
    ?_, by rw [Token.scan, cutAll_eq_flatMap, List.flatMap_def]⟩
  rw [List.forall₂_map_right_iff]
  refine (((List.forall₂_and_left _ _).mpr ⟨hv, hwords⟩).imp ?_)
  rintro v p ⟨hv', sp, rfl⟩
  exact reprint_of_rescannable hsigns hv' sp

theorem scan_intercalate_source :
    (Token.scan signs (" ".intercalate (vs.map TokenValue.source))).map (List.map (·.value)) =
      .ok vs ↔ TokenValue.hasExponentJoin vs = false := by
  obtain ⟨blocks, hr, hscan⟩ := scan_intercalate_blocks hsigns hv
  rw [hscan]
  constructor
  · intro h
    rw [Bool.eq_false_iff]
    intro hj
    obtain ⟨ts, hts, hvals⟩ := Except.map_eq_ok_inv h
    exact assemble_reprint_join hr hj 0 ts hts hvals.symm
  · intro hj
    obtain ⟨ts, hts, hvals⟩ := assemble_reprint hr hj 0
    rw [hts, ← hvals]
    rfl

end Joined

theorem toList_ne_nil_of_validSign {s : String} (h : validSign s = true) : s.toList ≠ [] := by
  simp only [validSign, Bool.and_eq_true, decide_eq_true_eq] at h
  simpa using h.1

/-- Scanning with the signs of a validated table in which no sign holds a digit or the letter `e`,
the tokens of a text, printed and joined by single spaces, scan back to the same values exactly
when no name, sign and number in a row print as one number. -/
theorem scan_source_forms {ι : Type} [DecidableEq ι] {levels : List (Level ι)} {t : Table ι}
    (ht : Table.ofLevels levels = .ok t)
    (hsigns : ∀ s ∈ t.signs, ∀ c ∈ s.toList, c.isDigit = false ∧ c ≠ 'e')
    {source : String} {ts : List Token} (hscan : Token.scan t.signs source = .ok ts) :
    (Token.scan t.signs (" ".intercalate (ts.map (·.value.source)))).map (List.map (·.value)) =
      .ok (ts.map (·.value)) ↔ TokenValue.hasExponentJoin (ts.map (·.value)) = false := by
  have hne : ∀ s ∈ t.signs, s.toList ≠ [] :=
    fun s hs => toList_ne_nil_of_validSign (Table.ofLevels_validSign ht s hs)
  have hv : ∀ v ∈ ts.map (·.value), v.Rescannable t.signs := by
    simpa using scan_rescannable hne hscan
  have h := scan_intercalate_source (fun s hs => ⟨hne s hs, hsigns s hs⟩) hv
  rwa [List.map_map] at h

theorem difference_scans_back :
    ∃ t, Table.ofLevels
        [⟨"sum", .left, [⟨Calculator.Op.sub, .chain, [.sign "-", .hole none]⟩]⟩] = .ok t ∧
      ∃ ts, Token.scan t.signs "a - 0.0005" = .ok ts ∧
        " ".intercalate (ts.map (·.value.source)) = "a - 5e-4" ∧
        (Token.scan t.signs (" ".intercalate (ts.map (·.value.source)))).map
          (List.map (·.value)) = .ok (ts.map (·.value)) := by
  refine ⟨_, Parser.ofLevels_difference, ?_⟩
  have hsigns : ∀ s ∈ ["-"], ∀ c ∈ s.toList, c.isDigit = false ∧ c ≠ 'e' := by
    intro s hs c hc
    rw [List.mem_singleton.mp hs] at hc
    obtain rfl : c = '-' := by simpa using hc
    decide
  have hrun : (Token.scan ["-"] "a - 0.0005").toOption.map (fun ts =>
      (" ".intercalate (ts.map (·.value.source)),
        TokenValue.hasExponentJoin (ts.map (·.value)))) = some ("a - 5e-4", false) := by
    decide +kernel
  cases hs : Token.scan ["-"] "a - 0.0005" with
  | error e =>
    rw [hs] at hrun
    cases hrun
  | ok ts =>
    rw [hs] at hrun
    simp only [Except.toOption, Option.map_some, Option.some.injEq, Prod.mk.injEq] at hrun
    exact ⟨ts, rfl, hrun.1, (scan_source_forms Parser.ofLevels_difference hsigns hs).mpr hrun.2⟩

end Mixfix
