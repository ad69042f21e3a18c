import Mathlib
import Mixfix.Decimal.Shortest

open Float.Model Float.Model.UnpackedFloat

namespace Mixfix.Decimal

def Extended.Denotes : ExtendedMantissa → ℚ → Prop
  | ⟨m, false, false⟩, y => y = m
  | ⟨m, false, true⟩, y => (m : ℚ) < y ∧ y < m + 1 / 2
  | ⟨m, true, false⟩, y => y = m + 1 / 2
  | ⟨m, true, true⟩, y => (m : ℚ) + 1 / 2 < y ∧ y < m + 1

theorem Extended.denotes_shiftRightOne {em : ExtendedMantissa} {y : ℚ} (h : Extended.Denotes em y) :
    Extended.Denotes em.shiftRightOne (y / 2) := by
  obtain ⟨m, r, s⟩ := em
  obtain ⟨a, rfl | rfl⟩ : ∃ a, m = 2 * a ∨ m = 2 * a + 1 := ⟨m / 2, by omega⟩
  · have h1 : 2 * a / 2 = a := by omega
    have h2 : (2 * a % 2 != 0) = false := by simp
    cases r <;> cases s <;>
      simp only [Extended.Denotes, ExtendedMantissa.shiftRightOne, h1, h2, Bool.or_false,
        Bool.or_true, Nat.cast_mul, Nat.cast_ofNat] at h ⊢
    all_goals (try obtain ⟨h₁, h₂⟩ := h)
    all_goals first | linarith | (constructor <;> linarith)
  · have h1 : (2 * a + 1) / 2 = a := by omega
    have h2 : ((2 * a + 1) % 2 != 0) = true := by simp [Nat.add_mod]
    cases r <;> cases s <;>
      simp only [Extended.Denotes, ExtendedMantissa.shiftRightOne, h1, h2, Bool.or_false,
        Bool.or_true, Nat.cast_mul, Nat.cast_ofNat, Nat.cast_add, Nat.cast_one] at h ⊢
    all_goals (try obtain ⟨h₁, h₂⟩ := h)
    all_goals first | linarith | (constructor <;> linarith)

theorem Extended.denotes_shiftRight {em : ExtendedMantissa} {y : ℚ} (h : Extended.Denotes em y) :
    ∀ k : ℕ, Extended.Denotes (em >>> k) (y / 2 ^ k)
  | 0 => by rw [pow_zero, div_one]; exact h
  | k + 1 => by
    have hk := Extended.denotes_shiftRightOne (Extended.denotes_shiftRight h k)
    rw [pow_succ, ← div_div]
    exact hk

theorem Extended.bounds {em : ExtendedMantissa} {y : ℚ} (h : Extended.Denotes em y) :
    (em.mantissa : ℚ) ≤ y ∧ y < em.mantissa + 1 := by
  obtain ⟨m, r, s⟩ := em
  cases r <;> cases s <;> simp only [Extended.Denotes] at h <;>
    (try obtain ⟨h₁, h₂⟩ := h) <;> constructor <;> linarith

/-- `n` is the integer nearest to `y`, the even one of two at the same distance. -/
def NearestEven (n : ℕ) (y : ℚ) : Prop :=
  |(n : ℚ) - y| ≤ 1 / 2 ∧ (|(n : ℚ) - y| = 1 / 2 → n % 2 = 0)

theorem NearestEven.not_lt {n n' : ℕ} {y : ℚ} (h : NearestEven n y) (h' : NearestEven n' y) :
    ¬ n < n' := by
  intro hlt
  have hc : (n : ℚ) + 1 ≤ n' := by exact_mod_cast hlt
  obtain ⟨h₁, h₂⟩ := abs_le.mp h.1
  obtain ⟨h₁', h₂'⟩ := abs_le.mp h'.1
  -- both lie exactly half a unit from `y`, on either side, so they are neighbours
  have hd : (n : ℚ) - y = -(1 / 2) := by linarith
  have hd' : (n' : ℚ) - y = 1 / 2 := by linarith
  have he := h.2 (by rw [hd]; norm_num)
  have he' := h'.2 (by rw [hd']; norm_num)
  have hnext : (n' : ℚ) = n + 1 := by linarith
  have hnext' : n' = n + 1 := by exact_mod_cast hnext
  omega

theorem NearestEven.unique {n n' : ℕ} {y : ℚ} (h : NearestEven n y) (h' : NearestEven n' y) :
    n = n' := by
  rcases lt_trichotomy n n' with hlt | heq | hgt
  · exact absurd hlt (h.not_lt h')
  · exact heq
  · exact absurd hgt (h'.not_lt h)

theorem Extended.nearestEven_roundedMantissa {em : ExtendedMantissa} {y : ℚ}
    (h : Extended.Denotes em y) : NearestEven em.roundedMantissa y := by
  obtain ⟨m, r, s⟩ := em
  cases r <;> cases s <;>
    simp only [Extended.Denotes, ExtendedMantissa.roundedMantissa, ExtendedMantissa.accuracy,
      Accuracy.roundToNearestEven] at h ⊢
  · subst h
    simp [NearestEven]
  · obtain ⟨h₁, h₂⟩ := h
    refine ⟨abs_le.mpr ⟨by linarith, by linarith⟩, fun he => ?_⟩
    rcases abs_eq (by norm_num : (0 : ℚ) ≤ 1 / 2) |>.mp he with he | he <;> linarith
  · subst h
    rcases Nat.mod_two_eq_zero_or_one m with hp | hp
    · simp only [hp, Nat.add_zero]
      refine ⟨by norm_num, fun _ => hp⟩
    · simp only [hp]
      refine ⟨by push_cast; norm_num, fun _ => by omega⟩
  · obtain ⟨h₁, h₂⟩ := h
    refine ⟨abs_le.mpr ⟨by push_cast; linarith, by push_cast; linarith⟩, fun he => ?_⟩
    push_cast at he
    rcases abs_eq (by norm_num : (0 : ℚ) ≤ 1 / 2) |>.mp he with he | he <;> linarith

theorem Extended.denotes_accuracyOfFraction (n : ℕ) {r d : ℕ} (hr : r < d) :
    Extended.Denotes (.ofMantissaAndAccuracy n (accuracyOfFraction r d)) (n + r / d) := by
  have hd : (0 : ℚ) < d := by exact_mod_cast (Nat.zero_lt_of_lt hr)
  unfold accuracyOfFraction
  by_cases h0 : r = 0
  · simp [h0, ExtendedMantissa.ofMantissaAndAccuracy, Extended.Denotes]
  · have hpos : (0 : ℚ) < r / d := div_pos (by exact_mod_cast Nat.pos_of_ne_zero h0) hd
    have hlt : (r : ℚ) / d < 1 := (div_lt_one hd).mpr (by exact_mod_cast hr)
    simp only [h0, if_false]
    rcases hc : compare (2 * r) d with _ | _ | _ <;>
      simp only [ExtendedMantissa.ofMantissaAndAccuracy, Extended.Denotes]
    · have h2 : ((2 * r : ℕ) : ℚ) < d := by exact_mod_cast Nat.compare_eq_lt.mp hc
      push_cast at h2
      have : (r : ℚ) / d < 1 / 2 := by rw [div_lt_iff₀ hd]; linarith
      constructor <;> linarith
    · have h2 : ((2 * r : ℕ) : ℚ) = d := by exact_mod_cast Nat.compare_eq_eq.mp hc
      push_cast at h2
      have : (r : ℚ) / d = 1 / 2 := by rw [div_eq_iff hd.ne']; linarith
      linarith
    · have h2 : (d : ℚ) < ((2 * r : ℕ) : ℚ) := by exact_mod_cast Nat.compare_eq_gt.mp hc
      push_cast at h2
      have : 1 / 2 < (r : ℚ) / d := by rw [lt_div_iff₀ hd]; linarith
      constructor <;> linarith

theorem targetExponent_eq (x : ℤ) : Format.binary64.targetExponent x = max (x - 53) (-1074) := by
  simp only [Format.targetExponent, Format.mantissaBits, Format.minExponent]
  norm_num

theorem target_eq (m : ℕ) (e : ℤ) :
    Format.binary64.targetExponent (totalExponent m e) = max ((m.log2 : ℤ) + e - 52) (-1074) := by
  rw [targetExponent_eq, totalExponent]
  omega

/-- `T` is the exponent of the last place of `q` in binary64: `q / 2^T` has 53 bits before the
point, or fewer at the least exponent. -/
def Normalized (q : ℚ) (T : ℤ) : Prop :=
  -1074 ≤ T ∧ q / 2 ^ T < 2 ^ 53 ∧ (2 ^ 52 ≤ q / 2 ^ T ∨ T = -1074)

theorem Normalized.unique {q : ℚ} {T T' : ℤ} (h : Normalized q T)
    (h' : Normalized q T') : T = T' := by
  have key : ∀ {T T' : ℤ}, Normalized q T → Normalized q T' → T < T' → False := by
    intro T T' h h' hlt
    have hT' : T' ≠ -1074 := by have := h.1; omega
    have hbig := h'.2.2.resolve_right hT'
    have hpow : (2 : ℚ) ^ T' = 2 ^ (T' - T) * 2 ^ T := by
      rw [← zpow_add₀ (by norm_num)]; ring_nf
    have htwo : (2 : ℚ) ≤ 2 ^ (T' - T) := by
      calc (2 : ℚ) = 2 ^ (1 : ℤ) := by norm_num
        _ ≤ 2 ^ (T' - T) := zpow_le_zpow_right₀ (by norm_num) (by omega)
    have hpos : (0 : ℚ) < 2 ^ T := zpow_pos (by norm_num) T
    have hpos' : (0 : ℚ) < 2 ^ (T' - T) := zpow_pos (by norm_num) _
    have hsmall := h.2.1
    have hsplit : q / 2 ^ T' = q / 2 ^ T / 2 ^ (T' - T) := by rw [hpow, div_div, mul_comm]
    rw [hsplit, le_div_iff₀ hpos'] at hbig
    have : (2 : ℚ) ^ 53 ≤ q / 2 ^ T := by
      calc (2 : ℚ) ^ 53 = 2 ^ 52 * 2 := by norm_num
        _ ≤ 2 ^ 52 * 2 ^ (T' - T) := by gcongr
        _ ≤ q / 2 ^ T := hbig
    linarith
  rcases lt_trichotomy T T' with hlt | heq | hgt
  · exact (key h h' hlt).elim
  · exact heq
  · exact (key h' h hgt).elim

theorem normalized_target {m : ℕ} {e : ℤ} {q : ℚ} (hb : (m : ℚ) ≤ q / 2 ^ e ∧ q / 2 ^ e < m + 1)
    (he : e ≤ Format.binary64.targetExponent (totalExponent m e)) :
    Normalized q (Format.binary64.targetExponent (totalExponent m e)) := by
  rw [target_eq] at he ⊢
  set T := max ((m.log2 : ℤ) + e - 52) (-1074) with hT
  have hsplit : q / 2 ^ T = q / 2 ^ e / 2 ^ (T - e) := by
    rw [div_div, ← zpow_add₀ (by norm_num)]; ring_nf
  have hposd : (0 : ℚ) < 2 ^ (T - e) := zpow_pos (by norm_num) _
  have hup : ((m + 1 : ℕ) : ℚ) ≤ 2 ^ ((m.log2 : ℤ) + 1) := by
    have := Nat.lt_log2_self (n := m)
    have h' : m + 1 ≤ 2 ^ (m.log2 + 1) := this
    calc ((m + 1 : ℕ) : ℚ) ≤ ((2 ^ (m.log2 + 1) : ℕ) : ℚ) := by exact_mod_cast h'
      _ = 2 ^ ((m.log2 : ℤ) + 1) := by push_cast; rw [← zpow_natCast]; push_cast; rfl
  refine ⟨le_max_right _ _, ?_, ?_⟩
  · rw [hsplit, div_lt_iff₀ hposd]
    calc q / 2 ^ e < m + 1 := hb.2
      _ ≤ 2 ^ ((m.log2 : ℤ) + 1) := by exact_mod_cast hup
      _ ≤ 2 ^ (53 : ℤ) * 2 ^ (T - e) := by
        rw [← zpow_add₀ (by norm_num)]
        exact zpow_le_zpow_right₀ (by norm_num) (by omega)
      _ = 2 ^ 53 * 2 ^ (T - e) := by norm_num
  · by_cases hmin : T = -1074
    · exact .inr hmin
    · left
      have hTe : T = (m.log2 : ℤ) + e - 52 := by omega
      have hm : m ≠ 0 := by
        rintro rfl
        simp at hTe
        omega
      have hlow : (2 : ℚ) ^ ((m.log2 : ℤ)) ≤ m := by
        rw [zpow_natCast]; exact_mod_cast Nat.log2_self_le hm
      rw [hsplit, le_div_iff₀ hposd]
      calc (2 : ℚ) ^ 52 * 2 ^ (T - e) = 2 ^ (((52 : ℕ) : ℤ) + (T - e)) := by
            rw [zpow_add₀ (by norm_num), zpow_natCast]
        _ = 2 ^ ((m.log2 : ℤ)) := by congr 1; omega
        _ ≤ m := hlow
        _ ≤ q / 2 ^ e := hb.1

/-- The magnitudes that binary64 holds: 53 bits with the leading one set, or fewer at the least
exponent; the gap below is narrow exactly at a power of two. -/
structure Binary.Canonical (b : Binary) : Prop where
  pos : 0 < b.mantissa
  lt : b.mantissa < 2 ^ 53
  exponent_ge : -1074 ≤ b.exponent
  exponent_le : b.exponent ≤ 971
  normal : 2 ^ 52 ≤ b.mantissa ∨ b.exponent = -1074
  narrow : b.narrowBelow = true ↔ b.mantissa = 2 ^ 52

/-- `q` reads back as `b`: it lies within half the gap to each neighbour of `b`, a quarter of a
unit below at a power of two, and on an end only when the mantissa is even. -/
def Binary.Rounds (b : Binary) (q : ℚ) : Prop :=
  let y := q / 2 ^ b.exponent
  let below : ℚ := if b.narrowBelow then 1 / 4 else 1 / 2
  if b.mantissa % 2 = 0 then (b.mantissa : ℚ) - below ≤ y ∧ y ≤ b.mantissa + 1 / 2
  else (b.mantissa : ℚ) - below < y ∧ y < b.mantissa + 1 / 2

theorem Binary.Rounds.normalized {b : Binary} (hb : b.Canonical) {q : ℚ} (h : b.Rounds q) :
    (Normalized q b.exponent ∧ NearestEven b.mantissa (q / 2 ^ b.exponent)) ∨
      (b.mantissa = 2 ^ 52 ∧ -1074 < b.exponent ∧ Normalized q (b.exponent - 1) ∧
        NearestEven (2 ^ 53) (q / 2 ^ (b.exponent - 1))) := by
  set y := q / 2 ^ b.exponent with hy
  have hm : (b.mantissa : ℚ) + 1 / 2 < 2 ^ 53 := by
    have : b.mantissa + 1 ≤ 2 ^ 53 := hb.lt
    have : ((b.mantissa + 1 : ℕ) : ℚ) ≤ 2 ^ 53 := by exact_mod_cast this
    push_cast at this
    linarith
  obtain ⟨hlo, hhi, hodd⟩ : (b.mantissa : ℚ) - (if b.narrowBelow then 1 / 4 else 1 / 2) ≤ y ∧
      y ≤ b.mantissa + 1 / 2 ∧ (b.mantissa % 2 = 1 → y < b.mantissa + 1 / 2 ∧
        (b.mantissa : ℚ) - (if b.narrowBelow then 1 / 4 else 1 / 2) < y) := by
    unfold Binary.Rounds at h
    rcases Nat.mod_two_eq_zero_or_one b.mantissa with hp | hp
    · simp only [hp, if_true] at h
      exact ⟨h.1, h.2, by omega⟩
    · simp only [hp, one_ne_zero, if_false] at h
      exact ⟨h.1.le, h.2.le, fun _ => ⟨h.2, h.1⟩⟩
  have hnear : ∀ (hy : (b.mantissa : ℚ) - 1 / 2 ≤ y), NearestEven b.mantissa y := by
    intro hy'
    refine ⟨abs_le.mpr ⟨by linarith, by linarith⟩, fun he => ?_⟩
    rcases Nat.mod_two_eq_zero_or_one b.mantissa with hp | hp
    · exact hp
    · obtain ⟨h₁, h₂⟩ := hodd hp
      rcases abs_eq (by norm_num : (0 : ℚ) ≤ 1 / 2) |>.mp he with he | he
      · split_ifs at h₂ <;> linarith
      · linarith
  by_cases hn : b.narrowBelow = true
  · have hpow := hb.narrow.mp hn
    simp only [hn, if_true] at hlo
    rw [hpow] at hlo hhi hm hnear
    push_cast at hlo hhi hm
    by_cases hbelow : y < 2 ^ 52
    · by_cases hmin : b.exponent = -1074
      · refine .inl ⟨⟨hb.exponent_ge, by linarith, .inr hmin⟩, ?_⟩
        rw [hpow]
        refine ⟨abs_le.mpr ⟨by push_cast; linarith, by push_cast; linarith⟩, fun he => ?_⟩
        push_cast at he
        rcases abs_eq (by norm_num : (0 : ℚ) ≤ 1 / 2) |>.mp he with he | he <;> linarith
      · have hdouble : q / 2 ^ (b.exponent - 1) = 2 * y := by
          rw [hy, zpow_sub_one₀ (by norm_num)]
          field_simp
        refine .inr ⟨hpow, by have := hb.exponent_ge; omega, ⟨by have := hb.exponent_ge; omega,
          by rw [hdouble]; linarith, .inl (by rw [hdouble]; linarith)⟩, ?_⟩
        rw [hdouble]
        refine ⟨abs_le.mpr ⟨by push_cast; linarith, by push_cast; linarith⟩, fun _ => ?_⟩
        norm_num
    · have hbelow := not_lt.mp hbelow
      refine .inl ⟨⟨hb.exponent_ge, by linarith, .inl hbelow⟩, ?_⟩
      rw [hpow]
      exact hnear (by linarith)
  · have hne : b.mantissa ≠ 2 ^ 52 := fun h => hn (hb.narrow.mpr h)
    simp only [hn, Bool.false_eq_true, if_false] at hlo
    refine .inl ⟨⟨hb.exponent_ge, by linarith, ?_⟩, hnear hlo⟩
    rcases hb.normal with hbig | hmin
    · left
      have : 2 ^ 52 + 1 ≤ b.mantissa := by omega
      have : ((2 ^ 52 + 1 : ℕ) : ℚ) ≤ b.mantissa := by exact_mod_cast this
      push_cast at this
      linarith
    · exact .inr hmin

theorem Binary.Canonical.log2_le {b : Binary} (hb : b.Canonical) :
    b.mantissa.log2 = 52 ∨ (b.mantissa.log2 < 52 ∧ b.exponent = -1074) := by
  rcases hb.normal with h | h
  · exact .inl ((Nat.log2_eq_iff hb.pos.ne').mpr ⟨h, hb.lt⟩)
  · by_cases hbig : 2 ^ 52 ≤ b.mantissa
    · exact .inl ((Nat.log2_eq_iff hb.pos.ne').mpr ⟨hbig, hb.lt⟩)
    · exact .inr ⟨(Nat.log2_lt hb.pos.ne').mpr (by omega), h⟩

theorem shiftToTargetExponent_canonical {b : Binary} (hb : b.Canonical) :
    shiftToTargetExponent .binary64 b.mantissa b.exponent .exact =
      (⟨b.mantissa, false, false⟩, b.exponent) := by
  have ht : Format.binary64.targetExponent (totalExponent b.mantissa b.exponent) = b.exponent := by
    rw [target_eq]
    have := hb.exponent_ge
    rcases hb.log2_le with h | ⟨h, h'⟩ <;> omega
  simp only [shiftToTargetExponent, shiftToExponent, ht, sub_self, Int.toNat_zero, Nat.cast_zero,
    add_zero]
  rfl

theorem shiftToTargetExponent_carry {E : ℤ} (hE : -1074 < E) :
    shiftToTargetExponent .binary64 (2 ^ 53) (E - 1) .exact = (⟨2 ^ 52, false, false⟩, E) := by
  have ht : Format.binary64.targetExponent (totalExponent (2 ^ 53) (E - 1)) = E := by
    rw [target_eq, Nat.log2_two_pow]
    omega
  have hone : (E - (E - 1)).toNat = 1 := by omega
  simp only [shiftToTargetExponent, shiftToExponent, ht, hone, Nat.cast_one, sub_add_cancel]
  change (ExtendedMantissa.shiftRightOne ⟨2 ^ 53, false, false⟩, E) = _
  simp only [ExtendedMantissa.shiftRightOne, Bool.or_false, Prod.mk.injEq, and_true]
  norm_num

theorem roundWithAccuracy_eq {b : Binary} (hb : b.Canonical) {m : ℕ} {e : ℤ} {acc : Accuracy}
    {q : ℚ} (hq : Extended.Denotes (.ofMantissaAndAccuracy m acc) (q / 2 ^ e))
    (he : e ≤ Format.binary64.targetExponent (totalExponent m e)) (hr : b.Rounds q) :
    roundWithAccuracy .binary64 .positive m e acc = .finite .positive b.mantissa b.exponent hb.pos := by
  set T := Format.binary64.targetExponent (totalExponent m e) with hT
  have hmant : (ExtendedMantissa.ofMantissaAndAccuracy m acc).mantissa = m := by
    cases acc with
    | exact => rfl
    | inexact o => cases o <;> rfl
  have hnorm : Normalized q T := normalized_target (hmant ▸ Extended.bounds hq) he
  have hfirst : shiftToTargetExponent .binary64 m e acc =
      (ExtendedMantissa.ofMantissaAndAccuracy m acc >>> (T - e).toNat, T) := by
    simp only [shiftToTargetExponent, shiftToExponent, ← hT]
    congr 1
    omega
  have hden : Extended.Denotes (ExtendedMantissa.ofMantissaAndAccuracy m acc >>> (T - e).toNat)
      (q / 2 ^ T) := by
    have h := Extended.denotes_shiftRight hq (T - e).toNat
    rwa [div_div, ← zpow_natCast, ← zpow_add₀ (by norm_num), show e + ((T - e).toNat : ℤ) = T by
      omega] at h
  have hround := Extended.nearestEven_roundedMantissa hden
  unfold roundWithAccuracy
  rw [hfirst]
  dsimp only
  rcases hr.normalized hb with ⟨hn, hne⟩ | ⟨hpow, hE, hn, hne⟩
  · have hT' : T = b.exponent := hnorm.unique hn
    have hN := hround.unique (by rw [hT']; exact hne)
    rw [hN, hT', shiftToTargetExponent_canonical hb]
    simp [hb.pos.ne']
  · have hT' : T = b.exponent - 1 := hnorm.unique hn
    have hN := hround.unique (by rw [hT']; exact hne)
    rw [hN, hT', shiftToTargetExponent_carry hE]
    simp [hpow]

theorem mul_eq {b : Binary} (hb : b.Canonical) {m₁ m₂ : ℕ} {e₁ e₂ : ℤ} (h₁ : 0 < m₁) (h₂ : 0 < m₂)
    (hprec : e₁ + e₂ ≤ Format.binary64.targetExponent (totalExponent (m₁ * m₂) (e₁ + e₂)))
    (hr : b.Rounds (m₁ * 2 ^ e₁ * (m₂ * 2 ^ e₂))) :
    mul .binary64 (.finite .positive m₁ e₁ h₁) (.finite .positive m₂ e₂ h₂) =
      .finite .positive b.mantissa b.exponent hb.pos := by
  refine roundWithAccuracy_eq hb ?_ hprec hr
  change _ = _
  rw [zpow_add₀ (by norm_num)]
  field_simp
  push_cast
  ring

theorem divCore_spec {m₁ m₂ : ℕ} (e₁ e₂ : ℤ) (h₁ : 0 < m₁) (h₂ : 0 < m₂) :
    let r := divCore .binary64 m₁ e₁ m₂ e₂
    Extended.Denotes (.ofMantissaAndAccuracy r.1 r.2.2)
        ((m₁ * 2 ^ e₁ / (m₂ * 2 ^ e₂)) / 2 ^ r.2.1) ∧
      r.2.1 ≤ Format.binary64.targetExponent (totalExponent r.1 r.2.1) := by
  set t := min (e₁ - e₂)
    (Format.binary64.targetExponent (totalExponent m₁ e₁ - totalExponent m₂ e₂)) with ht
  set sh := (e₁ - e₂ - t).toNat with hsh
  have hdiv : divCore .binary64 m₁ e₁ m₂ e₂ =
      ((m₁ <<< sh) / m₂, t, accuracyOfFraction ((m₁ <<< sh) % m₂) m₂) := rfl
  rw [hdiv]
  dsimp only
  have hsh' : (sh : ℤ) = e₁ - e₂ - t := by
    have := min_le_left (e₁ - e₂) (Format.binary64.targetExponent
      (totalExponent m₁ e₁ - totalExponent m₂ e₂))
    omega
  constructor
  · have hd := Extended.denotes_accuracyOfFraction ((m₁ <<< sh) / m₂) (Nat.mod_lt (m₁ <<< sh) h₂)
    have hm₂ : (0 : ℚ) < m₂ := by exact_mod_cast h₂
    have hsplit : (((m₁ <<< sh) / m₂ : ℕ) : ℚ) + (((m₁ <<< sh) % m₂ : ℕ) : ℚ) / m₂ =
        m₁ * 2 ^ (sh : ℤ) / m₂ := by
      rw [eq_div_iff hm₂.ne', add_mul, div_mul_cancel₀ _ hm₂.ne', zpow_natCast]
      have hn : ((m₁ <<< sh : ℕ) : ℚ) = m₁ * 2 ^ sh := by rw [Nat.shiftLeft_eq]; push_cast; ring
      rw [← hn]
      exact_mod_cast Nat.div_add_mod' (m₁ <<< sh) m₂
    rw [hsplit] at hd
    convert hd using 1
    rw [hsh', zpow_sub₀ (by norm_num), zpow_sub₀ (by norm_num)]
    field_simp
  · rw [target_eq]
    by_cases hmin : t ≤ -1074
    · exact le_max_of_le_right hmin
    · apply le_max_of_le_left
      set L₁ := m₁.log2
      set L₂ := m₂.log2
      -- the shift leaves at least 53 bits more than the divisor has
      have hbits : 53 + L₂ ≤ L₁ + sh := by
        rw [targetExponent_eq] at ht
        simp only [totalExponent] at ht
        omega
      have hlow : 2 ^ 52 * m₂ ≤ m₁ <<< sh := by
        rw [Nat.shiftLeft_eq]
        calc 2 ^ 52 * m₂ ≤ 2 ^ 52 * 2 ^ (L₂ + 1) := by
              have := Nat.lt_log2_self (n := m₂)
              exact Nat.mul_le_mul_left _ this.le
          _ = 2 ^ (53 + L₂) := by rw [← pow_add]; ring_nf
          _ ≤ 2 ^ (L₁ + sh) := Nat.pow_le_pow_right (by norm_num) hbits
          _ = 2 ^ L₁ * 2 ^ sh := pow_add _ _ _
          _ ≤ m₁ * 2 ^ sh := Nat.mul_le_mul_right _ (Nat.log2_self_le h₁.ne')
      have hq : 2 ^ 52 ≤ (m₁ <<< sh) / m₂ := (Nat.le_div_iff_mul_le h₂).mpr (by linarith)
      have hlog : 52 ≤ ((m₁ <<< sh) / m₂).log2 :=
        (Nat.le_log2 (by positivity)).mpr hq
      omega

theorem div_eq {b : Binary} (hb : b.Canonical) {m₁ m₂ : ℕ} {e₁ e₂ : ℤ} (h₁ : 0 < m₁) (h₂ : 0 < m₂)
    (hr : b.Rounds (m₁ * 2 ^ e₁ / (m₂ * 2 ^ e₂))) :
    div .binary64 (.finite .positive m₁ e₁ h₁) (.finite .positive m₂ e₂ h₂) =
      .finite .positive b.mantissa b.exponent hb.pos := by
  obtain ⟨hd, hprec⟩ := divCore_spec e₁ e₂ h₁ h₂
  exact roundWithAccuracy_eq hb hd hprec hr

theorem ofScientific_eq {b : Binary} (hb : b.Canonical) {s : ℕ} {k : ℤ} (hs : 0 < s)
    (hk : k ≤ 2048) (hk' : -(2048 + (s.log2 : ℤ)) ≤ k) (hr : b.Rounds (s * 10 ^ k)) :
    UnpackedFloat.ofScientific .binary64 s k = .finite .positive b.mantissa b.exponent hb.pos := by
  unfold UnpackedFloat.ofScientific
  have hbits : Format.binary64.exponentBits = 11 := rfl
  have hmb : Format.binary64.mantissaBits = 53 := rfl
  rw [dif_neg hs.ne', if_neg (by rw [hbits]; norm_num; omega),
    if_neg (by rw [hbits]; norm_num; omega)]
  split_ifs with hk0
  · apply mul_eq hb
    · rw [target_eq, hmb]
      generalize hM : (s <<< 53) * 10 ^ k.toNat = M
      have hM0 : 2 ^ 53 ≤ M := by
        rw [← hM, Nat.shiftLeft_eq, Nat.mul_comm s, Nat.mul_assoc]
        exact Nat.le_mul_of_pos_right _ (Nat.mul_pos hs (Nat.pow_pos (by norm_num)))
      have : 53 ≤ M.log2 := (Nat.le_log2 (by omega)).mpr hM0
      omega
    · have h10 : ((10 ^ k.toNat : ℕ) : ℚ) = 10 ^ k := by
        rw [Nat.cast_pow, ← zpow_natCast, Int.toNat_of_nonneg hk0]; norm_num
      convert hr using 1
      rw [hmb, Nat.shiftLeft_eq, h10]
      push_cast
      field_simp
      norm_num
  · have h10 : ((10 ^ (-k).toNat : ℕ) : ℚ) = 10 ^ (-k) := by
      rw [Nat.cast_pow, ← zpow_natCast, Int.toNat_of_nonneg (by omega)]; norm_num
    apply div_eq hb
    convert hr using 1
    rw [h10, zpow_neg]
    field_simp

end Mixfix.Decimal
