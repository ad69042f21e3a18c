import Mixfix.Proofs.Token.Cutting

namespace Mixfix

namespace Piece

/-- What cutting by the signs `done`, in order, leaves of a piece, whatever the signs: a sign
piece holds one of them, and a residue is a nonempty run without blanks in which none of the
nonempty ones occurs. -/
def Left (done : List String) : Piece → Prop
  | .sign s _ => s ∈ done
  | .residue w _ => w.toList ≠ [] ∧ (∀ c ∈ w.toList, Text.isBlank c = false) ∧
      ∀ a ∈ done, a.toList ≠ [] → ¬ a.toList <:+: w.toList

theorem left_words (source : String) : ∀ p ∈ words source, Left [] p := by
  intro p hp
  have hkept := kept_words source p hp
  cases p with
  | sign s sp =>
    obtain ⟨-, -, A, B, hAB, -⟩ := hkept
    simp at hAB
  | residue w sp =>
    obtain ⟨hne, hb, -⟩ := hkept
    exact ⟨hne, hb, by simp⟩

theorem left_cut {done : List String} (sign : String) :
    ∀ {p : Piece}, Left done p → ∀ q ∈ p.cut sign, Left (done ++ [sign]) q
  | .sign s sp, hs, q, hq => by
    obtain rfl := List.mem_singleton.mp hq
    exact List.mem_append_left _ hs
  | .residue w sp, ⟨_, hwb, hwn⟩, q, hq => by
    rcases mem_cut hq with ⟨-, sp', rfl⟩ | ⟨part, hmem, hne, sp', rfl⟩
    · exact List.mem_append_right _ (List.mem_singleton_self _)
    · have hin := infix_of_mem_splitOn hmem
      simp only [Left, String.toList_ofList]
      refine ⟨hne, fun c hc => hwb c (hin.mem hc), fun a ha ha₀ hi => ?_⟩
      rcases List.mem_append.mp ha with ha | ha
      · exact hwn a ha ha₀ (hi.trans hin)
      · rw [List.mem_singleton.mp ha] at hi ha₀
        exact not_infix_of_mem_splitOn ha₀ hmem hi

theorem left_cutAll : ∀ {signs done : List String} {ps : List Piece},
    (∀ p ∈ ps, Left done p) → ∀ p ∈ cutAll signs ps, Left (done ++ signs) p
  | [], done, ps, h => by simpa [cutAll] using h
  | s₀ :: signs, done, ps, h => by
    rw [cutAll_cons, show done ++ s₀ :: signs = (done ++ [s₀]) ++ signs by simp]
    refine left_cutAll fun q hq => ?_
    obtain ⟨p, hp, hq⟩ := List.mem_flatMap.mp hq
    exact left_cut s₀ (h p hp) q hq

end Piece

/-- What a token of a scan by `signs` is: a sign is one of them; a name is a nonempty run without
blanks in which no nonempty sign occurs, which does not begin with a digit and has not the number
grammar; a number is a plain double, finite with its sign bit clear. -/
def TokenValue.Classified (signs : List String) : TokenValue → Prop
  | .sign s => s ∈ signs
  | .ident n => n.toList ≠ [] ∧ (∀ c ∈ n.toList, Text.isBlank c = false) ∧
      (∀ a ∈ signs, a.toList ≠ [] → ¬ a.toList <:+: n.toList) ∧
      (n.toList.head?.map Char.isDigit).getD false = false ∧ Numeral.isNumber n = false
  | .number x => Decimal.isPlain x = true

theorem scan_classified {signs : List String} {source : String} {ts : List Token}
    (h : Token.scan signs source = .ok ts) : ∀ t ∈ ts, t.value.Classified signs := by
  intro t ht
  have hleft := @Piece.left_cutAll signs [] _ (Piece.left_words source)
  have hmade := assemble_made h t ht
  obtain ⟨value, span⟩ := t
  cases value with
  | sign s =>
    obtain ⟨sp, hsp⟩ := hmade
    simpa [TokenValue.Classified, Piece.Left] using hleft _ hsp
  | ident n =>
    obtain ⟨⟨sp, hsp⟩, hnum, hhead⟩ := hmade
    obtain ⟨hne, hblank, hno⟩ := hleft _ hsp
    exact ⟨hne, hblank, by simpa using hno, hhead, hnum⟩
  | number x => exact hmade

/-- How assembling reads a piece or a run of pieces: three joined into one number, or one alone. -/
inductive Reading where
  | joined (t : Token)
  | alone (p : Piece)

/-- The readings of pieces, from the left: a mantissa with its mark, a sign `+` or `-` and
exponent digits are joined where their value is finite, and every other piece is read alone. -/
def readings : List Piece → List Reading
  | [] => []
  | p₁ :: p₂ :: p₃ :: rest =>
    match joinExponent p₁ p₂ p₃ with
    | some t => .joined t :: readings rest
    | none => .alone p₁ :: readings (p₂ :: p₃ :: rest)
  | p :: rest => .alone p :: readings rest
termination_by ps => ps.length

/-- A residue that must be a number and is none: it begins with a digit or has the number
grammar, and it is not a number of the grammar with a finite value. -/
def Malformed (text : String) : Prop :=
  ((text.toList.head?.map Char.isDigit).getD false = true ∨ Numeral.isNumber text = true) ∧
    ¬ (Numeral.isNumber text = true ∧ (finiteValue? text).isSome)

/-- The error a run of readings, the first of index `index`, fails with: the first residue read
alone that is malformed, at the index of its reading and with its span. -/
def FirstMalformed (index : Nat) (rs : List Reading) (err : SyntaxError) : Prop :=
  ∃ i text sp, rs[i]? = some (.alone (.residue text sp)) ∧ Malformed text ∧
    (∀ j < i, ∀ text' sp', rs[j]? = some (.alone (.residue text' sp')) → ¬ Malformed text') ∧
    err = ⟨.malformedNumber text, index + i, some sp⟩

theorem classify_eq_error_iff {text : String} {sp : Span} {index : Nat} {err : SyntaxError} :
    classify text sp index = .error err ↔
      Malformed text ∧ err = ⟨.malformedNumber text, index, some sp⟩ := by
  unfold classify Malformed
  cases hv : (if Numeral.isNumber text then finiteValue? text else none) with
  | some x =>
    have hnum : Numeral.isNumber text = true ∧ (finiteValue? text).isSome := by
      split_ifs at hv with hn
      exact ⟨hn, by simp [hv]⟩
    simp [hnum]
  | none =>
    have hnot : ¬ (Numeral.isNumber text = true ∧ (finiteValue? text).isSome) := by
      rintro ⟨hn, hf⟩
      rw [if_pos hn] at hv
      simp [hv] at hf
    simp only [hnot, not_false_eq_true, and_true]
    split_ifs with hd
    · constructor
      · intro h
        exact ⟨by simpa using hd, (Except.error.inj h).symm⟩
      · rintro ⟨-, rfl⟩
        rfl
    · constructor
      · intro h
        cases h
      · rintro ⟨hd', -⟩
        simp only [Bool.or_eq_true] at hd
        exact absurd hd' hd

theorem Piece.token_eq_error_iff {p : Piece} {index : Nat} {err : SyntaxError} :
    p.token index = .error err ↔
      ∃ text sp, p = .residue text sp ∧ Malformed text ∧
        err = ⟨.malformedNumber text, index, some sp⟩ := by
  cases p with
  | sign s sp => simp [Piece.token]
  | residue text sp => simp [Piece.token, classify_eq_error_iff]

namespace FirstMalformed

variable {index : Nat} {rs : List Reading} {err : SyntaxError}

theorem not_nil : ¬ FirstMalformed index [] err := by
  rintro ⟨i, text, sp, hi, -⟩
  simp at hi

theorem joined_cons {t : Token} :
    FirstMalformed index (.joined t :: rs) err ↔ FirstMalformed (index + 1) rs err := by
  constructor
  · rintro ⟨i, text, sp, hi, hm, hfirst, rfl⟩
    cases i with
    | zero => simp at hi
    | succ i =>
      refine ⟨i, text, sp, by simpa using hi, hm, fun j hj text' sp' hj' => ?_, by simp; omega⟩
      exact hfirst (j + 1) (by omega) text' sp' (by simpa using hj')
  · rintro ⟨i, text, sp, hi, hm, hfirst, rfl⟩
    refine ⟨i + 1, text, sp, by simpa using hi, hm, fun j hj text' sp' hj' => ?_, by simp; omega⟩
    cases j with
    | zero => simp at hj'
    | succ j => exact hfirst j (by omega) text' sp' (by simpa using hj')

theorem alone_cons {p : Piece} :
    FirstMalformed index (.alone p :: rs) err ↔
      p.token index = .error err ∨
        ((∀ e, p.token index ≠ .error e) ∧ FirstMalformed (index + 1) rs err) := by
  rw [Piece.token_eq_error_iff]
  constructor
  · rintro ⟨i, text, sp, hi, hm, hfirst, rfl⟩
    cases i with
    | zero =>
      simp only [List.getElem?_cons_zero, Option.some.injEq, Reading.alone.injEq] at hi
      exact .inl ⟨text, sp, hi, hm, rfl⟩
    | succ i =>
      refine .inr ⟨fun e he => ?_, i, text, sp, by simpa using hi, hm,
        fun j hj text' sp' hj' => hfirst (j + 1) (by omega) text' sp' (by simpa using hj'),
        by simp; omega⟩
      obtain ⟨text', sp', rfl, hm', -⟩ := Piece.token_eq_error_iff.mp he
      exact hfirst 0 (by omega) text' sp' rfl hm'
  · rintro (⟨text, sp, rfl, hm, rfl⟩ | ⟨hok, i, text, sp, hi, hm, hfirst, rfl⟩)
    · exact ⟨0, text, sp, rfl, hm, fun j hj => absurd hj (Nat.not_lt_zero j), by simp⟩
    · refine ⟨i + 1, text, sp, by simpa using hi, hm, fun j hj text' sp' hj' hm' => ?_,
        by simp; omega⟩
      cases j with
      | zero =>
        simp only [List.getElem?_cons_zero, Option.some.injEq, Reading.alone.injEq] at hj'
        exact hok _ (Piece.token_eq_error_iff.mpr ⟨text', sp', hj', hm', rfl⟩)
      | succ j => exact hfirst j (by omega) text' sp' (by simpa using hj') hm'

end FirstMalformed

theorem assemble_eq_error_iff {index : Nat} {ps : List Piece} {err : SyntaxError} :
    assemble index ps = .error err ↔ FirstMalformed index (readings ps) err := by
  fun_induction assemble index ps with
  | case1 => simp [readings, FirstMalformed.not_nil]
  | case2 index p₁ p₂ p₃ rest t hj ih =>
    rw [readings, hj, FirstMalformed.joined_cons, ← ih]
    cases assemble (index + 1) rest <;> simp [Functor.map, Except.map]
  | case3 index p₁ p₂ p₃ rest hj ih =>
    rw [readings, hj, FirstMalformed.alone_cons, ← ih]
    cases ht : p₁.token index <;> cases assemble (index + 1) (p₂ :: p₃ :: rest) <;>
      simp [bind, Except.bind, Functor.map, Except.map]
  | case4 index p rest hshape ih =>
    have hread : readings (p :: rest) = .alone p :: readings rest := by
      rcases rest with _ | ⟨q, _ | ⟨r, rest⟩⟩
      · simp [readings]
      · simp [readings]
      · exact (hshape _ _ _ rfl).elim
    rw [hread, FirstMalformed.alone_cons, ← ih]
    cases ht : p.token index <;> cases assemble (index + 1) rest <;>
      simp [bind, Except.bind, Functor.map, Except.map]

/-- A scan gives tokens of their classes, or fails exactly with the first malformed residue that
the exponent join leaves alone, at the index its token would have had. -/
theorem scan_classes (signs : List String) (source : String) :
    (∀ ts, Token.scan signs source = .ok ts → ∀ t ∈ ts, t.value.Classified signs) ∧
      ∀ err, Token.scan signs source = .error err ↔
        FirstMalformed 0 (readings (cutAll signs (words source))) err :=
  ⟨fun _ h => scan_classified h, fun _ => assemble_eq_error_iff⟩

end Mixfix
