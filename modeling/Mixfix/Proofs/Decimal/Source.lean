import Mathlib
import Mixfix.Proofs.Token.Rescan

open Float.Model Float.Model.UnpackedFloat

namespace Mixfix

namespace Decimal

theorem packComponents_negative (e : BitVec 11) (m : BitVec 52) :
    (packComponents .binary64 .negative e m).toNat =
      (packComponents .binary64 .positive e m).toNat + 2 ^ 63 := by
  simp only [packComponents, toNat_append_eq, Sign.toBitVec, BitVec.toNat_ofNat]
  norm_num
  ring

theorem pack_negative_toNat {m : ℕ} {e : ℤ} (hm : 0 < m) :
    (UnpackedFloat.pack .binary64 (.finite .negative m e hm)).toNat =
      (UnpackedFloat.pack .binary64 (.finite .positive m e hm)).toNat + 2 ^ 63 := by
  unfold UnpackedFloat.pack
  dsimp only
  -- the same branch packs either sign: an infinity, a normal or a subnormal double
  split
  · exact packComponents_negative _ _
  · split
    · exact packComponents_negative _ _
    · exact packComponents_negative _ _

theorem shape_ofBits_add_sign {n : ℕ} (hn : n < 2 ^ 63) (b : Binary) :
    Shape.ofBits (n + 2 ^ 63) = .finite true b ↔ Shape.ofBits n = .finite false b := by
  have hsign : (2 : ℕ) ^ 63 = 9223372036854775808 := by norm_num
  rw [hsign] at hn ⊢
  have h₁ : (n + 9223372036854775808) / 4503599627370496 % 2048 =
      n / 4503599627370496 % 2048 := by
    omega
  have h₂ : (n + 9223372036854775808) % 4503599627370496 = n % 4503599627370496 := by omega
  have h₃ : (n + 9223372036854775808) / 9223372036854775808 % 2 = 1 := by omega
  have h₄ : n / 9223372036854775808 % 2 = 0 := by omega
  rw [shape_ofBits_eq, shape_ofBits_eq, h₁, h₂, h₃, h₄]
  split_ifs <;> simp

theorem bits_of_shape_negative {n : ℕ} {b : Binary} (hn : n < 2 ^ 64)
    (h : Shape.ofBits n = .finite true b) : b.Canonical ∧ n = b.bits + 2 ^ 63 := by
  have hsign : n / 9223372036854775808 % 2 = 1 := by
    rw [shape_ofBits_eq] at h
    split_ifs at h <;> simpa using (Shape.finite.inj h).1
  have hle : 2 ^ 63 ≤ n := by norm_num; omega
  have hclear : Shape.ofBits (n - 2 ^ 63) = .finite false b :=
    (shape_ofBits_add_sign (by norm_num at hn ⊢; omega) b).mp (by rwa [Nat.sub_add_cancel hle])
  obtain ⟨hb, hbits⟩ := Binary.canonical_of_shape (by omega) hclear
  exact ⟨hb, by omega⟩

theorem eq_ofModel_pack_negative {x : Float} {b : Binary} (hx : Shape.ofFloat x = .finite true b) :
    ∃ hb : b.Canonical,
      x = Float.ofModel (Float.Model.pack (.finite .negative b.mantissa b.exponent hb.pos)) := by
  obtain ⟨hb, hbits⟩ := bits_of_shape_negative x.toBits.toNat_lt hx
  refine ⟨hb, eq_of_toBits_eq ?_⟩
  rw [hbits, toBits_ofModel_pack, pack_negative_toNat, pack_toNat hb]

theorem eq_neg_of_shape {x : Float} {b : Binary} (hx : Shape.ofFloat x = .finite true b) :
    ∃ y, Shape.ofFloat y = .finite false b ∧ x = -y := by
  obtain ⟨hb, rfl⟩ := eq_ofModel_pack_negative hx
  refine ⟨Float.ofModel (Float.Model.pack (.finite .positive b.mantissa b.exponent hb.pos)),
    ?_, ?_⟩
  · rw [Shape.ofFloat, toBits_ofModel_pack, pack_toNat hb]
    exact hb.shape_bits
  · show _ = Float.ofModel (Float.Model.pack
      (Float.Model.pack (.finite .positive b.mantissa b.exponent hb.pos)).unpack.neg)
    rw [unpack_pack hb]
    rfl

theorem eq_neg_zero_of_shape {x : Float} (hx : Shape.ofFloat x = .zero true) : x = -0 := by
  apply eq_of_toBits_eq
  rw [bits_of_shape_zero x.toBits.toNat_lt hx]
  decide +kernel

theorem source_neg {x y : Float} {b : Binary} (hx : Shape.ofFloat x = .finite true b)
    (hy : Shape.ofFloat y = .finite false b) : source x = "-" ++ source y := by
  simp [source_of_finite hx, source_of_finite hy]

theorem read?_minus {c : Char} {cs : List Char} (hc : c = '.' ∨ c.isDigit = true) :
    read? ("-" ++ String.ofList (c :: cs)) = (read? (String.ofList (c :: cs))).map (-·) := by
  have hs : splitSign ("-" ++ String.ofList (c :: cs)).toList = (true, c :: cs) := by
    simp only [String.toList_append, String.toList_ofList]
    rfl
  rw [read?_of_splitSign hs hc, read?_eq_map hc, Option.map_map]
  rfl

theorem read?_source_of_negative {x : Float} {b : Binary} (hx : Shape.ofFloat x = .finite true b) :
    read? (source x) = some x := by
  obtain ⟨y, hy, rfl⟩ := eq_neg_of_shape hx
  have hsource : source y = b.shortest.compact := by simp [source_of_finite hy]
  obtain ⟨c, cs, hcs, hc⟩ := compact_toList_cons b.shortest
  have hy' : source y = String.ofList (c :: cs) := by rw [hsource, ← hcs, String.ofList_toList]
  rw [source_neg hx hy, hy', read?_minus (.inr hc), ← hy', read?_source_of_finite hy]
  rfl

theorem read?_source_of_zero_negative {x : Float} (hx : Shape.ofFloat x = .zero true) :
    read? (source x) = some x := by
  have hsource : source x = "-" ++ String.ofList ['0'] := by
    rw [source_of_zero hx]
    rfl
  have hzero : String.ofList ['0'] = source 0 := by decide +kernel
  rw [hsource, read?_minus (.inr rfl), hzero, read?_source (by decide +kernel),
    eq_neg_zero_of_shape hx]
  rfl

theorem read?_source_of_isFinite {x : Float} (hx : isFinite x = true) :
    read? (source x) = some x := by
  cases hs : Shape.ofFloat x with
  | nan => simp [isFinite, hs] at hx
  | infinity negative => simp [isFinite, hs] at hx
  | zero negative =>
    cases negative
    · exact read?_source (isPlain_iff.mpr (.inl hs))
    · exact read?_source_of_zero_negative hs
  | finite negative b =>
    cases negative
    · exact read?_source_of_finite hs
    · exact read?_source_of_negative hs

theorem source_value {x : Float} {negative : Bool} {b : Binary}
    (hx : Shape.ofFloat x = .finite negative b) :
    ∃ t d, (source x).toList = (if negative then '-' :: t else t) ∧ readUnsigned t = some d ∧
      (d.significand : ℚ) * 10 ^ d.exponent =
        b.shortest.significand * 10 ^ b.shortest.exponent := by
  have hb : b.Canonical := by
    cases negative
    · exact (Binary.canonical_of_shape x.toBits.toNat_lt hx).1
    · exact (bits_of_shape_negative x.toBits.toNat_lt hx).1
  obtain ⟨hpos, -⟩ := b.shortest_rounds hb
  obtain ⟨d, hread, -, hv⟩ := readUnsigned_compact hpos
  refine ⟨b.shortest.compact.toList, d, ?_, hread, hv⟩
  cases negative <;> simp [source_of_finite hx]

theorem point_notMem_source (x : Float) : '.' ∉ (source x).toList := by
  have hprinted : ∀ {w : List Char}, Numeral.Printed w → '.' ∉ w := fun hw hmem => by
    rcases hw.chars '.' hmem with h | h | h <;> exact absurd h (by decide)
  cases hs : Shape.ofFloat x with
  | nan => simp [source, writeWith, hs]
  | infinity negative => cases negative <;> simp [source, writeWith, hs]
  | zero negative => cases negative <;> simp [source_of_zero hs]
  | finite negative b =>
    cases negative
    · exact hprinted (Numeral.printed_source (isPlain_iff.mpr (.inr ⟨b, hs⟩)))
    · obtain ⟨y, hy, rfl⟩ := eq_neg_of_shape hs
      rw [source_neg hs hy, String.toList_append]
      exact List.not_mem_append (by decide)
        (hprinted (Numeral.printed_source (isPlain_iff.mpr (.inr ⟨b, hy⟩))))

theorem zero_le_iff_unpack {x : Float} :
    (0 : Float) ≤ x ↔ (UnpackedFloat.zero .positive).le x.toModel.unpack = true := by
  show Float.le 0 x = true ↔ _
  unfold Float.le
  simp only [decide_eq_true_eq]
  rfl

theorem isPlain_of_le {x : Float} (hx : isFinite x = true) (hle : 0 ≤ x) (hneg : x ≠ -0) :
    isPlain x = true := by
  cases hs : Shape.ofFloat x with
  | nan => simp [isFinite, hs] at hx
  | infinity negative => simp [isFinite, hs] at hx
  | zero negative =>
    cases negative
    · exact isPlain_iff.mpr (.inl hs)
    · exact absurd (eq_neg_zero_of_shape hs) hneg
  | finite negative b =>
    cases negative
    · exact isPlain_iff.mpr (.inr ⟨b, hs⟩)
    · obtain ⟨hb, rfl⟩ := eq_ofModel_pack_negative hs
      rw [zero_le_iff_unpack] at hle
      dsimp only at hle
      rw [unpack_pack_sign hb .negative] at hle
      cases hle

end Decimal

theorem Numeral.Printed.isNumber_ofList {w : List Char} (h : Numeral.Printed w) :
    Numeral.isNumber (String.ofList w) = true := by
  cases h with
  | integer m hm => exact Numeral.isNumber_integer hm
  | exponent m ex hm hex => exact Numeral.isNumber_exponent hm hex
  | negative m ex hm hex =>
    have hjoin : String.ofList (m ++ 'e' :: '-' :: ex) =
        String.ofList (m ++ ['e']) ++ "-" ++ String.ofList ex := by
      rw [← String.toList_inj]
      simp
    rw [hjoin]
    exact Numeral.isNumber_join (Numeral.isMarkedMantissa_mark hm) (.inr rfl)
      (by simpa [Numeral.isExponentDigits] using hex)

theorem joinExponent_source {x : Float} (hx : Decimal.isPlain x = true) {m ex : List Char}
    (hcut : (Decimal.source x).toList = m ++ '-' :: ex) (sp₁ sp₂ sp₃ : Span) :
    joinExponent (.residue (String.ofList m) sp₁) (.sign "-" sp₂)
      (.residue (String.ofList ex) sp₃) = some ⟨.number x, sp₁.merge sp₃⟩ := by
  have hprinted := Numeral.printed_source hx
  generalize hw : (Decimal.source x).toList = w at hprinted hcut
  have hminus : '-' ∈ w := by
    rw [hcut]
    exact List.mem_append_right m List.mem_cons_self
  cases hprinted with
  | integer _ hm => nomatch Numeral.isInteger_digits hm '-' hminus
  | exponent m' ex' hm hex =>
    rcases Numeral.mem_exponent (Numeral.isInteger_digits hm) (Numeral.isInteger_digits hex) '-'
      hminus with h | h <;> nomatch h
  | negative m' ex' hm hex =>
    have hnm : '-' ∉ m' ++ ['e'] := fun h => by
      rcases List.mem_append.mp h with h | h
      · nomatch Numeral.isInteger_digits hm '-' h
      · exact absurd (List.mem_singleton.mp h) (by decide)
    have hnex : '-' ∉ ex' := fun h => nomatch Numeral.isInteger_digits hex '-' h
    rw [show m' ++ 'e' :: '-' :: ex' = (m' ++ ['e']) ++ '-' :: ex' by simp] at hcut
    obtain ⟨rfl, -, rfl⟩ := (List.append_cons_inj_of_notMem hnm hnex).mp hcut
    have hjoin : String.ofList (m' ++ ['e']) ++ "-" ++ String.ofList ex' = Decimal.source x := by
      rw [← String.toList_inj, hw]
      simp
    have hdigits : Numeral.isExponentDigits (String.ofList ex') = true := by
      simpa [Numeral.isExponentDigits] using hex
    dsimp only [joinExponent]
    rw [Numeral.isMarkedMantissa_mark hm, hdigits, if_pos (by decide), hjoin,
      finiteValue?_source hx]
    rfl

/-- The text of a double holds no point. A finite double reads back from it bit for bit, and a
finite nonzero one is written as its sign and digits of exactly the value of its shortest digits.
A finite double at least zero, other than the negative zero, is written as a number of the token
grammar, and cut at a `-` its text gives the pieces that joining an exponent puts back together as
the double. -/
theorem Decimal.source_reads_back (x : Float) :
    '.' ∉ (Decimal.source x).toList ∧
      (Decimal.isFinite x = true → Decimal.read? (Decimal.source x) = some x) ∧
      (∀ (negative : Bool) (b : Decimal.Binary), Decimal.Shape.ofFloat x = .finite negative b →
        ∃ t d, (Decimal.source x).toList = (if negative then '-' :: t else t) ∧
          Decimal.readUnsigned t = some d ∧
          (d.significand : ℚ) * 10 ^ d.exponent =
            b.shortest.significand * 10 ^ b.shortest.exponent) ∧
      (Decimal.isFinite x = true → 0 ≤ x → x ≠ -0 →
        Numeral.isNumber (Decimal.source x) = true ∧
          ∀ m ex, (Decimal.source x).toList = m ++ '-' :: ex → ∀ sp₁ sp₂ sp₃ : Span,
            joinExponent (.residue (String.ofList m) sp₁) (.sign "-" sp₂)
              (.residue (String.ofList ex) sp₃) = some ⟨.number x, sp₁.merge sp₃⟩) := by
  refine ⟨Decimal.point_notMem_source x, Decimal.read?_source_of_isFinite,
    fun negative b hx => Decimal.source_value hx, fun hx hle hneg => ?_⟩
  have hplain := Decimal.isPlain_of_le hx hle hneg
  refine ⟨?_, fun m ex hcut => joinExponent_source hplain hcut⟩
  rw [← String.ofList_toList (s := Decimal.source x)]
  exact (Numeral.printed_source hplain).isNumber_ofList

theorem Decimal.source_negative_zero :
    (0 : Float) ≤ -0 ∧ Decimal.source (-0) = "-0" ∧
      Numeral.isNumber (Decimal.source (-0)) = false :=
  ⟨by decide +kernel, by decide +kernel, by decide +kernel⟩

end Mixfix
