import Mathlib
import Mixfix.Proofs.Decimal.Rounding
import Mixfix.Decimal.Read

open Float.Model Float.Model.UnpackedFloat

namespace Mixfix.Decimal

/-- The 64 bits of the positive double of magnitude `b`: the biased exponent above 52 bits of
fraction, or the mantissa alone below the least exponent of normal doubles. -/
def Binary.bits (b : Binary) : ℕ :=
  if 2 ^ 52 ≤ b.mantissa then (b.exponent + 1075).toNat * 2 ^ 52 + (b.mantissa - 2 ^ 52)
  else b.mantissa

theorem shape_ofBits_eq (n : ℕ) : Shape.ofBits n =
    if n / 4503599627370496 % 2048 = 2047 then
      (if n % 4503599627370496 = 0 then .infinity (n / 9223372036854775808 % 2 = 1) else .nan)
    else if n / 4503599627370496 % 2048 = 0 then
      (if n % 4503599627370496 = 0 then .zero (n / 9223372036854775808 % 2 = 1)
       else .finite (n / 9223372036854775808 % 2 = 1) ⟨n % 4503599627370496, -1074, false⟩)
    else .finite (n / 9223372036854775808 % 2 = 1)
      ⟨n % 4503599627370496 + 4503599627370496, ((n / 4503599627370496 % 2048 : ℕ) : ℤ) - 1075,
        n % 4503599627370496 = 0⟩ := by
  have c52 : Nat.pow 2 52 = 4503599627370496 := by norm_num
  have c63 : Nat.pow 2 63 = 9223372036854775808 := by norm_num
  have c11 : Nat.pow 2 11 = 2048 := by norm_num
  simp only [Shape.ofBits, c52, c63, c11, beq_iff_eq]
  rfl

theorem Binary.Canonical.shape_bits {b : Binary} (hb : b.Canonical) :
    Shape.ofBits b.bits = .finite false b := by
  obtain ⟨m, e, nb⟩ := b
  obtain ⟨hpos, hlt, hge, hle, hnormal, hn⟩ := hb
  simp only at hpos hlt hge hle hnormal hn
  norm_num at hlt
  norm_num at hnormal
  rw [show (2 : ℕ) ^ 52 = 4503599627370496 by norm_num] at hn
  rw [shape_ofBits_eq]
  unfold Binary.bits
  simp only
  by_cases hbig : 2 ^ 52 ≤ m
  · rw [if_pos hbig]
    have hbig' : 4503599627370496 ≤ m := by simpa using hbig
    have h1 : ((e + 1075).toNat * 2 ^ 52 + (m - 2 ^ 52)) / 4503599627370496 % 2048 =
        (e + 1075).toNat := by norm_num; omega
    have h2 : ((e + 1075).toNat * 2 ^ 52 + (m - 2 ^ 52)) % 4503599627370496 =
        m - 4503599627370496 := by norm_num; omega
    have h3 : ((e + 1075).toNat * 2 ^ 52 + (m - 2 ^ 52)) / 9223372036854775808 % 2 = 0 := by
      norm_num; omega
    rw [h1, h2, h3, if_neg (by omega), if_neg (by omega)]
    have hm : m - 4503599627370496 + 4503599627370496 = m := by omega
    have he : (((e + 1075).toNat : ℕ) : ℤ) - 1075 = e := by omega
    have hnb : decide (m - 4503599627370496 = 0) = nb := by
      cases nb
      · simp only [Bool.false_eq_true, false_iff] at hn
        simp only [decide_eq_false_iff_not]
        omega
      · simp only [true_iff] at hn
        simp only [decide_eq_true_eq]
        omega
    simp only [hm, he, hnb]
    rfl
  · rw [if_neg hbig]
    have hsmall : m < 4503599627370496 := by simpa using hbig
    have he : e = -1074 := hnormal.resolve_left (by omega)
    have hnb : nb = false := by
      cases nb
      · rfl
      · exact absurd (hn.mp rfl) (by omega)
    have hsign : m / 9223372036854775808 = 0 := Nat.div_eq_of_lt (by omega)
    rw [Nat.div_eq_of_lt hsmall, Nat.mod_eq_of_lt hsmall, if_neg (by omega), if_pos (by omega),
      if_neg (by omega), he, hnb, hsign]
    rfl

theorem Binary.canonical_of_shape {n : ℕ} {b : Binary} (hn : n < 2 ^ 64)
    (h : Shape.ofBits n = .finite false b) : b.Canonical ∧ n = b.bits := by
  rw [shape_ofBits_eq] at h
  have hn' : n < 18446744073709551616 := by simpa using hn
  split_ifs at h with hF hf hZ hf'
  · obtain ⟨hs, rfl⟩ := Shape.finite.inj h
    simp only [decide_eq_false_iff_not] at hs
    refine ⟨⟨by simp only; omega, by simp only; norm_num; omega, by simp, by simp,
      .inr rfl, by simp only [Bool.false_eq_true, false_iff]; norm_num; omega⟩, ?_⟩
    unfold Binary.bits
    rw [if_neg (by simp only; norm_num; omega)]
    simp only
    omega
  · obtain ⟨hs, rfl⟩ := Shape.finite.inj h
    simp only [decide_eq_false_iff_not] at hs
    refine ⟨⟨by simp only; omega, by simp only; norm_num; omega, by simp only; omega,
      by simp only; omega, .inl (by simp only; norm_num), ?_⟩, ?_⟩
    · simp only [decide_eq_true_eq]
      norm_num
    · unfold Binary.bits
      rw [if_pos (by simp only; norm_num)]
      simp only
      norm_num
      omega

theorem toNat_append_eq {m n : ℕ} (x : BitVec m) (y : BitVec n) :
    (x ++ y).toNat = x.toNat * 2 ^ n + y.toNat := by
  rw [BitVec.toNat_append, ← Nat.shiftLeft_add_eq_or_of_lt y.isLt, Nat.shiftLeft_eq]

theorem pack_toNat {b : Binary} (hb : b.Canonical) :
    (UnpackedFloat.pack .binary64 (.finite .positive b.mantissa b.exponent hb.pos)).toNat =
      b.bits := by
  have hbias : Format.binary64.exponentBias = 1023 := rfl
  have hmb : Format.binary64.mantissaBits = 53 := rfl
  have := hb.exponent_ge
  have := hb.exponent_le
  unfold UnpackedFloat.pack
  simp only [hbias, hmb]
  rw [if_neg (by norm_num; omega)]
  unfold Binary.bits
  rcases hb.log2_le with hlog | ⟨hlog, hmin⟩
  · have hbig : 2 ^ 52 ≤ b.mantissa := by
      have := Nat.log2_self_le hb.pos.ne'; rw [hlog] at this; exact this
    rw [if_pos (by omega), if_pos hbig]
    simp only [packComponents, toNat_append_eq, Sign.toBitVec, BitVec.toNat_ofNat]
    have hlt : b.mantissa < 9007199254740992 := by simpa using hb.lt
    have hbig' : 4503599627370496 ≤ b.mantissa := by simpa using hbig
    norm_num
    omega
  · have hsmall : b.mantissa < 2 ^ 52 := (Nat.log2_lt hb.pos.ne').mp hlog
    rw [if_neg (by omega), if_neg (by omega)]
    simp only [packComponents, toNat_append_eq, Sign.toBitVec, BitVec.toNat_ofNat]
    have hsmall' : b.mantissa < 4503599627370496 := by simpa using hsmall
    norm_num
    omega

theorem unpackSign_packComponents {s : Sign} {e : BitVec 11} {m : BitVec 52} :
    @unpackSign .binary64 (packComponents .binary64 s e m) = s.toBitVec := by
  apply BitVec.eq_of_toNat_eq
  have he := e.isLt
  have hm := m.isLt
  have hs := s.toBitVec.isLt
  simp only [unpackSign, packComponents, BitVec.toNat_cast, BitVec.extractLsb_toNat,
    toNat_append_eq, Nat.shiftRight_eq_div_pow]
  norm_num at he hm hs ⊢
  omega

theorem sign_ofBitVec_toBitVec (s : Sign) : Sign.ofBitVec s.toBitVec = s := by
  cases s <;> rfl

theorem unpack_pack_sign {b : Binary} (hb : b.Canonical) (s : Sign) :
    (Float.Model.pack (.finite s b.mantissa b.exponent hb.pos)).unpack =
      .finite s b.mantissa b.exponent hb.pos := by
  have hbias : Format.binary64.exponentBias = 1023 := rfl
  have hmb : Format.binary64.mantissaBits = 53 := rfl
  have := hb.exponent_ge
  have := hb.exponent_le
  have hlt : b.mantissa < 9007199254740992 := by simpa using hb.lt
  unfold Float.Model.pack Float.Model.unpack
  unfold UnpackedFloat.pack
  simp only [hbias, hmb]
  rw [if_neg (by norm_num; omega)]
  rcases hb.log2_le with hlog | ⟨hlog, hmin⟩
  · have hbig : 4503599627370496 ≤ b.mantissa := by
      have := Nat.log2_self_le hb.pos.ne'; rw [hlog] at this; simpa using this
    rw [if_pos (by omega)]
    unfold UnpackedFloat.unpack
    simp only [unpackMantissa_packComponents, unpackExponent_packComponents,
      unpackSign_packComponents, Nat.cast_ofNat]
    have hE : (BitVec.ofNat 11 (b.exponent + 1023 + 52).toNat).toNat =
        (b.exponent + 1075).toNat := by
      rw [BitVec.toNat_ofNat]; norm_num; omega
    have hE1 : BitVec.ofNat 11 (b.exponent + 1023 + 52).toNat ≠ -1#11 := by
      intro h
      have h' := congrArg BitVec.toNat h
      rw [hE] at h'
      norm_num at h'
      omega
    have hE0 : BitVec.ofNat 11 (b.exponent + 1023 + 52).toNat ≠ 0#11 := by
      intro h
      have h' := congrArg BitVec.toNat h
      rw [hE] at h'
      norm_num at h'
      omega
    rw [if_neg hE1, if_neg hE0]
    simp only [UnpackedFloat.finite.injEq]
    refine ⟨sign_ofBitVec_toBitVec s, ?_, ?_⟩
    · rw [toNat_append_eq, BitVec.toNat_ofNat]
      norm_num
      omega
    · rw [hE, hbias]
      omega
  · have hsmall : b.mantissa < 4503599627370496 := by
      have := (Nat.log2_lt hb.pos.ne').mp hlog; simpa using this
    rw [if_neg (by omega)]
    unfold UnpackedFloat.unpack
    simp only [unpackMantissa_packComponents, unpackExponent_packComponents,
      unpackSign_packComponents]
    have hM : BitVec.ofNat 52 b.mantissa ≠ 0#52 := by
      intro h
      have h' := congrArg BitVec.toNat h
      rw [BitVec.toNat_ofNat] at h'
      norm_num at h'
      have := hb.pos
      omega
    rw [if_neg (by decide), if_pos trivial, dif_neg hM]
    simp only [UnpackedFloat.finite.injEq]
    refine ⟨sign_ofBitVec_toBitVec s, ?_, ?_⟩
    · rw [BitVec.toNat_ofNat]
      norm_num
      omega
    · rw [hbias, hmin]
      rfl

theorem unpack_pack {b : Binary} (hb : b.Canonical) :
    (Float.Model.pack (.finite .positive b.mantissa b.exponent hb.pos)).unpack =
      .finite .positive b.mantissa b.exponent hb.pos :=
  unpack_pack_sign hb .positive

theorem eq_ofModel_pack {x : Float} {b : Binary} (hx : Shape.ofFloat x = .finite false b) :
    ∃ hb : b.Canonical,
      x = Float.ofModel (Float.Model.pack (.finite .positive b.mantissa b.exponent hb.pos)) := by
  obtain ⟨hb, hbits⟩ := Binary.canonical_of_shape x.toBits.toNat_lt hx
  refine ⟨hb, ?_⟩
  obtain ⟨⟨bits, valid⟩⟩ := x
  simp only [Float.ofModel.injEq, Float.Model.pack, Float.Model.mk.injEq]
  apply UInt64.toNat_inj.mp
  have hpack : (UInt64.ofBitVec (UnpackedFloat.pack .binary64
      (.finite .positive b.mantissa b.exponent hb.pos))).toNat = b.bits := by
    rw [UInt64.toNat_ofBitVec, pack_toNat hb]
  rw [hpack]
  exact hbits

theorem unpack_of_shape {x : Float} {b : Binary} (hx : Shape.ofFloat x = .finite false b) :
    ∃ hb : b.Canonical, x.toModel.unpack = .finite .positive b.mantissa b.exponent hb.pos := by
  obtain ⟨hb, rfl⟩ := eq_ofModel_pack hx
  exact ⟨hb, unpack_pack hb⟩

theorem log2_shiftLeft {m : ℕ} (hm : 0 < m) (k : ℕ) : (m <<< k).log2 = m.log2 + k := by
  rw [Nat.shiftLeft_eq, Nat.log2_eq_iff (by positivity)]
  constructor
  · rw [pow_add]
    exact Nat.mul_le_mul_right _ (Nat.log2_self_le hm.ne')
  · rw [show m.log2 + k + 1 = m.log2 + 1 + k by omega, pow_add]
    exact Nat.mul_lt_mul_of_pos_right Nat.lt_log2_self (by positivity)

theorem round_eq {b : Binary} (hb : b.Canonical) {m : ℕ} {e : ℤ} (hm : 0 < m)
    (hr : b.Rounds (m * 2 ^ e)) :
    UnpackedFloat.round .binary64 .positive m e = .finite .positive b.mantissa b.exponent hb.pos := by
  unfold UnpackedFloat.round decreaseExponent
  dsimp only
  set k := (e - Format.binary64.targetExponent (totalExponent m e)).toNat with hk
  refine roundWithAccuracy_eq hb ?_ ?_ hr
  · change (m : ℚ) * 2 ^ e / 2 ^ (e - (k : ℤ)) = ((m <<< k : ℕ) : ℚ)
    rw [Nat.shiftLeft_eq, zpow_sub₀ (by norm_num), zpow_natCast]
    push_cast
    field_simp
  · have htot : totalExponent (m <<< k) (e - k) = totalExponent m e := by
      simp only [totalExponent, log2_shiftLeft hm]
      push_cast
      ring
    rw [htot]
    omega

theorem exists_canonical_nat {n : ℕ} (hn : 0 < n) (hn' : n < 2 ^ 53) :
    ∃ b : Binary, b.Canonical ∧ b.Rounds n ∧ (b.mantissa : ℚ) * 2 ^ b.exponent = n ∧
      2 ^ 52 ≤ b.mantissa := by
  set k := 52 - n.log2 with hk
  have hlog : n.log2 ≤ 52 := by have := (Nat.log2_lt hn.ne').mpr hn'; omega
  have hM : 2 ^ 52 ≤ n <<< k ∧ n <<< k < 2 ^ 53 := by
    have h := log2_shiftLeft hn k
    rw [show n.log2 + k = 52 by omega] at h
    have hpos : n <<< k ≠ 0 := by rw [Nat.shiftLeft_eq]; positivity
    exact ⟨h ▸ Nat.log2_self_le hpos, by have := Nat.lt_log2_self (n := n <<< k); rwa [h] at this⟩
  have hvalue : ((n <<< k : ℕ) : ℚ) * 2 ^ (-(k : ℤ)) = n := by
    rw [Nat.shiftLeft_eq, zpow_neg, zpow_natCast]
    push_cast
    field_simp
  refine ⟨⟨n <<< k, -(k : ℤ), decide (n <<< k = 2 ^ 52)⟩,
    ⟨by simp only; omega, hM.2, by simp only; omega, by simp only; omega, .inl hM.1,
      by simp⟩, ?_, hvalue, hM.1⟩
  have hy : (n : ℚ) / 2 ^ (-(k : ℤ)) = ((n <<< k : ℕ) : ℚ) := by
    rw [← hvalue, mul_div_assoc, div_self (by positivity), mul_one]
  unfold Binary.Rounds
  simp only [hy]
  split_ifs <;> constructor <;> norm_num

theorem toFloat_unpack {b : Binary} (hb : b.Canonical) {n : ℕ} (hn : 0 < n) (hn' : n < 2 ^ 53)
    (hr : b.Rounds n) :
    (n.toUInt64.toFloat).toModel.unpack = .finite .positive b.mantissa b.exponent hb.pos := by
  have hnat : n.toUInt64.toNat = n := by
    simp only [Nat.toUInt64_eq, UInt64.toNat_ofNat']
    exact Nat.mod_eq_of_lt (by omega)
  have hround : (n.toUInt64.toFloat).toModel =
      Float.Model.pack (UnpackedFloat.round .binary64 .positive n 0) := by
    change Float.Model.pack (UnpackedFloat.ofUInt64 .binary64 n.toUInt64) = _
    simp only [UnpackedFloat.ofUInt64, UnpackedFloat.ofNat, UnpackedFloat.ofInt,
      UnpackedFloat.normalize, hnat]
    rw [show compare (n : ℤ) 0 = .gt from compare_gt_iff_gt.mpr (by omega)]
    rfl
  rw [hround, round_eq hb hn (by simpa using hr), unpack_pack hb]

def isPowerOfTen (x : Float) (k : ℕ) : Bool :=
  match Shape.ofFloat x with
  | .finite false b =>
    if 0 ≤ b.exponent then b.mantissa * 2 ^ b.exponent.toNat == 10 ^ k
    else b.mantissa == 10 ^ k * 2 ^ (-b.exponent).toNat
  | _ => false

theorem isPowerOfTen_table :
    ∀ k (h : k < Float.exactlyRepresentablePowersOfTen.size),
      isPowerOfTen Float.exactlyRepresentablePowersOfTen[k] k = true := by
  decide +kernel

theorem isPowerOfTen_spec {x : Float} {k : ℕ} (h : isPowerOfTen x k = true) :
    ∃ b : Binary, ∃ hb : b.Canonical,
      x.toModel.unpack = .finite .positive b.mantissa b.exponent hb.pos ∧
        (b.mantissa : ℚ) * 2 ^ b.exponent = 10 ^ k := by
  unfold isPowerOfTen at h
  split at h
  · rename_i b hx
    obtain ⟨hb, hu⟩ := unpack_of_shape hx
    refine ⟨b, hb, hu, ?_⟩
    split_ifs at h with he
    · have heq : (b.mantissa : ℚ) * 2 ^ b.exponent.toNat = 10 ^ k := by
        exact_mod_cast beq_iff_eq.mp h
      rwa [← zpow_natCast, Int.toNat_of_nonneg he] at heq
    · have heq : (b.mantissa : ℚ) = 10 ^ k * 2 ^ (-b.exponent).toNat := by
        exact_mod_cast beq_iff_eq.mp h
      rw [heq, ← zpow_natCast (2 : ℚ), Int.toNat_of_nonneg (by omega : 0 ≤ -b.exponent),
        mul_assoc, ← zpow_add₀ (by norm_num), neg_add_cancel, zpow_zero, mul_one]
  · cases h

theorem ofScientific_eq_of_rounds {x : Float} {b : Binary} (hx : Shape.ofFloat x = .finite false b)
    {m : ℕ} {s : Bool} {e : ℕ} (hm : 0 < m) (hk : (if s then -(e : ℤ) else e) ≤ 2048)
    (hk' : -(2048 + (m.log2 : ℤ)) ≤ (if s then -(e : ℤ) else e))
    (hr : b.Rounds (m * 10 ^ (if s then -(e : ℤ) else e))) :
    Float.ofScientific m s e = x := by
  obtain ⟨hb, rfl⟩ := eq_ofModel_pack hx
  unfold Float.ofScientific
  by_cases hfast : m < 2 ^ 53 ∧ e ≤ 22
  · rw [dif_pos hfast]
    obtain ⟨bt, hbt, hut, hvt⟩ := isPowerOfTen_spec
      (isPowerOfTen_table e (by simp [Float.exactlyRepresentablePowersOfTen]; omega))
    obtain ⟨bm, hbm, hrm, hvm, hnorm⟩ := exists_canonical_nat hm hfast.1
    have hum := toFloat_unpack hbm hm hfast.1 hrm
    cases s
    · simp only [Bool.false_eq_true, if_false] at hr ⊢
      change Float.ofModel (Float.Model.mul _ _) = _
      unfold Float.Model.mul
      rw [hum, hut]
      congr 2
      apply mul_eq hb
      · rw [target_eq]
        have : 52 ≤ (bm.mantissa * bt.mantissa).log2 :=
          (Nat.le_log2 (Nat.mul_pos hbm.pos hbt.pos).ne').mpr
            (le_trans hnorm (Nat.le_mul_of_pos_right _ hbt.pos))
        omega
      · convert hr using 1
        rw [zpow_natCast, ← hvm, ← hvt]
    · simp only [if_true] at hr ⊢
      change Float.ofModel (Float.Model.div _ _) = _
      unfold Float.Model.div
      rw [hum, hut]
      congr 2
      apply div_eq hb
      convert hr using 1
      rw [hvm, hvt, zpow_neg, zpow_natCast, div_eq_mul_inv]
  · rw [dif_neg hfast]
    change Float.ofModel (Float.Model.pack _) = _
    congr 2
    cases s
    · simp only [Bool.false_eq_true, if_false] at hk hk' hr
      exact ofScientific_eq hb hm hk hk' hr
    · simp only [if_true] at hk hk' hr
      simp only [if_true, Int.negOfNat_eq]
      exact ofScientific_eq hb hm hk hk' hr

theorem one_le_decimalLength (n : ℕ) : 1 ≤ decimalLength n := by
  rw [decimalLength]
  split_ifs <;> omega

theorem decimalLength_bounds : ∀ n : ℕ, 0 < n →
    10 ^ (decimalLength n - 1) ≤ n ∧ n < 10 ^ decimalLength n := by
  intro n
  induction n using Nat.strong_induction_on with
  | _ n ih =>
    intro hn
    rw [decimalLength]
    split_ifs with h
    · exact ⟨by norm_num; omega, by norm_num; omega⟩
    · obtain ⟨h₁, h₂⟩ := ih (n / 10) (by omega) (by omega)
      have hL := one_le_decimalLength (n / 10)
      rw [Nat.add_sub_cancel]
      constructor
      · calc 10 ^ decimalLength (n / 10) = 10 ^ (decimalLength (n / 10) - 1) * 10 := by
              rw [← pow_succ, Nat.sub_add_cancel hL]
          _ ≤ n / 10 * 10 := Nat.mul_le_mul_right _ h₁
          _ ≤ n := Nat.div_mul_le_self n 10
      · rw [pow_succ]
        omega

theorem Binary.Rounds.near {b : Binary} {q : ℚ} (hr : b.Rounds q) :
    (b.mantissa : ℚ) - 1 / 2 ≤ q / 2 ^ b.exponent ∧ q / 2 ^ b.exponent ≤ b.mantissa + 1 / 2 := by
  unfold Binary.Rounds at hr
  split_ifs at hr <;> constructor <;> linarith [hr.1, hr.2]

theorem Binary.Rounds.range {b : Binary} (hb : b.Canonical) {q : ℚ} (hr : b.Rounds q) :
    2 ^ (-1075 : ℤ) ≤ q ∧ q < 2 ^ (1024 : ℤ) := by
  obtain ⟨h₁, h₂⟩ := hr.near
  have hm₁ : (1 : ℚ) ≤ b.mantissa := by exact_mod_cast hb.pos
  have hm₂ : (b.mantissa : ℚ) + 1 ≤ 2 ^ 53 := by exact_mod_cast hb.lt
  have hE : (0 : ℚ) < 2 ^ b.exponent := zpow_pos two_pos _
  have hq : q = q / 2 ^ b.exponent * 2 ^ b.exponent := by field_simp
  constructor
  · calc (2 : ℚ) ^ (-1075 : ℤ) ≤ 2 ^ (b.exponent - 1) :=
          zpow_le_zpow_right₀ (by norm_num) (by linarith [hb.exponent_ge])
      _ = 1 / 2 * 2 ^ b.exponent := by rw [zpow_sub_one₀ two_ne_zero]; ring
      _ ≤ q / 2 ^ b.exponent * 2 ^ b.exponent := mul_le_mul_of_nonneg_right (by linarith) hE.le
      _ = q := hq.symm
  · calc q = q / 2 ^ b.exponent * 2 ^ b.exponent := hq
      _ < 2 ^ 53 * 2 ^ b.exponent := mul_lt_mul_of_pos_right (by linarith) hE
      _ = 2 ^ (53 + b.exponent) := by rw [zpow_add₀ two_ne_zero]; norm_num
      _ ≤ 2 ^ (1024 : ℤ) := zpow_le_zpow_right₀ (by norm_num) (by linarith [hb.exponent_le])

theorem Digits.toFloat_eq {x : Float} {b : Binary} (hx : Shape.ofFloat x = .finite false b)
    {d : Digits} (hd : 0 < d.significand) (hr : b.Rounds (d.significand * 10 ^ d.exponent)) :
    d.toFloat = x := by
  obtain ⟨hb, -⟩ := eq_ofModel_pack hx
  obtain ⟨hlo, hhi⟩ := hr.range hb
  obtain ⟨hL₁, hL₂⟩ := decimalLength_bounds d.significand hd
  have hL := one_le_decimalLength d.significand
  have hq₁ : (10 : ℚ) ^ ((decimalLength d.significand : ℤ) - 1 + d.exponent) ≤
      d.significand * 10 ^ d.exponent := by
    rw [zpow_add₀ (by norm_num), show (decimalLength d.significand : ℤ) - 1 =
      ((decimalLength d.significand - 1 : ℕ) : ℤ) by omega, zpow_natCast]
    gcongr
    exact_mod_cast hL₁
  have hq₂ : (d.significand : ℚ) * 10 ^ d.exponent <
      10 ^ ((decimalLength d.significand : ℤ) + d.exponent) := by
    rw [zpow_add₀ (by norm_num), zpow_natCast]
    gcongr
    exact_mod_cast hL₂
  have htop : (decimalLength d.significand : ℤ) + d.exponent < 310 := by
    by_contra h
    have h₁ : (10 : ℚ) ^ (309 : ℤ) ≤ 10 ^ ((decimalLength d.significand : ℤ) - 1 + d.exponent) :=
      zpow_le_zpow_right₀ (by norm_num) (by omega)
    have h₂ : (2 : ℚ) ^ (1024 : ℤ) < 10 ^ (309 : ℤ) := by
      have h : (2 : ℕ) ^ 1024 < 10 ^ 309 := by decide +kernel
      rw [show (1024 : ℤ) = ((1024 : ℕ) : ℤ) from rfl, show (309 : ℤ) = ((309 : ℕ) : ℤ) from rfl,
        zpow_natCast, zpow_natCast]
      exact_mod_cast h
    exact lt_irrefl _ ((h₁.trans hq₁).trans_lt (hhi.trans h₂))
  have hbot : -324 < (decimalLength d.significand : ℤ) + d.exponent := by
    by_contra h
    have h₁ : (10 : ℚ) ^ ((decimalLength d.significand : ℤ) + d.exponent) ≤ 10 ^ (-324 : ℤ) :=
      zpow_le_zpow_right₀ (by norm_num) (by omega)
    have h₂ : (10 : ℚ) ^ (-324 : ℤ) < 2 ^ (-1075 : ℤ) := by
      have h : (2 : ℕ) ^ 1075 < 10 ^ 324 := by decide +kernel
      rw [show (-324 : ℤ) = -((324 : ℕ) : ℤ) from rfl, show (-1075 : ℤ) = -((1075 : ℕ) : ℤ) from rfl,
        zpow_neg, zpow_neg, zpow_natCast, zpow_natCast]
      exact (inv_lt_inv₀ (by positivity) (by positivity)).mpr (by exact_mod_cast h)
    exact lt_irrefl _ (((hlo.trans_lt hq₂).trans_le h₁).trans h₂)
  -- more digits than bits would be needed for the model's guard on small exponents to fire
  have hlog : decimalLength d.significand ≤ d.significand.log2 + 1 := by
    have h := (Nat.le_log2 hd.ne').mpr
      (le_trans (Nat.pow_le_pow_left (by norm_num : 2 ≤ 10) _) hL₁)
    omega
  unfold Digits.toFloat
  simp only [if_neg hd.ne', if_neg (not_le.mpr htop), if_neg (not_le.mpr hbot)]
  split_ifs with hk
  · have he : (if false = true then -((d.exponent.toNat : ℕ) : ℤ) else (d.exponent.toNat : ℤ)) =
        d.exponent := by simp [hk]
    refine ofScientific_eq_of_rounds hx hd ?_ ?_ ?_ <;> rw [he]
    · omega
    · omega
    · exact hr
  · have he : (if true = true then -(((-d.exponent).toNat : ℕ) : ℤ)
        else ((-d.exponent).toNat : ℤ)) = d.exponent := by simp; omega
    refine ofScientific_eq_of_rounds hx hd ?_ ?_ ?_ <;> rw [he]
    · omega
    · omega
    · exact hr

end Mixfix.Decimal
