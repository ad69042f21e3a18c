import Mathlib
import Mixfix.Proofs.Decimal.Reading
import Mixfix.Decimal.Notation

namespace Mixfix.Decimal

theorem zpow_eq_div_toNat {x : ℚ} (hx : x ≠ 0) (t : ℤ) :
    x ^ t = x ^ t.toNat / x ^ (-t).toNat := by
  rw [← zpow_natCast, ← zpow_natCast, ← zpow_sub₀ hx]
  congr 1
  omega

theorem scales_pos (t k : ℤ) : 0 < (scales t k).1 ∧ 0 < (scales t k).2 := by
  simp only [scales, Nat.pow_eq]
  constructor <;> positivity

theorem scales_spec (t k : ℤ) : ((scales t k).1 : ℚ) * 10 ^ k = (scales t k).2 * 2 ^ t := by
  simp only [scales, Nat.pow_eq, Nat.cast_mul, Nat.cast_pow, Nat.cast_ofNat]
  rw [zpow_eq_div_toNat (by norm_num) k, zpow_eq_div_toNat (by norm_num) t]
  field_simp

theorem scaled_mul (t k : ℤ) (a : ℕ) :
    (a : ℚ) * (scales t k).1 * 10 ^ k = (scales t k).2 * (a * 2 ^ t) := by
  rw [mul_assoc, scales_spec]
  ring

theorem scaled_le_iff (t k : ℤ) (a c : ℕ) :
    a * (scales t k).1 ≤ c * (scales t k).2 ↔ (a : ℚ) * 2 ^ t ≤ c * 10 ^ k := by
  have h₂ : (0 : ℚ) < (scales t k).2 := by exact_mod_cast (scales_pos t k).2
  have h₁₀ : (0 : ℚ) < 10 ^ k := zpow_pos (by norm_num) k
  rw [show a * (scales t k).1 ≤ c * (scales t k).2 ↔
      (a : ℚ) * (scales t k).1 ≤ c * (scales t k).2 by norm_cast,
    ← mul_le_mul_iff_of_pos_right h₁₀,
    scaled_mul, show (c : ℚ) * (scales t k).2 * 10 ^ k = (scales t k).2 * (c * 10 ^ k) by ring,
    mul_le_mul_iff_of_pos_left h₂]

theorem scaled_lt_iff (t k : ℤ) (a c : ℕ) :
    a * (scales t k).1 < c * (scales t k).2 ↔ (a : ℚ) * 2 ^ t < c * 10 ^ k := by
  have h₂ : (0 : ℚ) < (scales t k).2 := by exact_mod_cast (scales_pos t k).2
  have h₁₀ : (0 : ℚ) < 10 ^ k := zpow_pos (by norm_num) k
  rw [show a * (scales t k).1 < c * (scales t k).2 ↔
      (a : ℚ) * (scales t k).1 < c * (scales t k).2 by norm_cast,
    ← mul_lt_mul_iff_of_pos_right h₁₀,
    scaled_mul, show (c : ℚ) * (scales t k).2 * 10 ^ k = (scales t k).2 * (c * 10 ^ k) by ring,
    mul_lt_mul_iff_of_pos_left h₂]

theorem le_scaled_iff (t k : ℤ) (a c : ℕ) :
    c * (scales t k).2 ≤ a * (scales t k).1 ↔ (c : ℚ) * 10 ^ k ≤ a * 2 ^ t := by
  simpa only [not_lt] using (scaled_lt_iff t k a c).not

theorem lt_scaled_iff (t k : ℤ) (a c : ℕ) :
    c * (scales t k).2 < a * (scales t k).1 ↔ (c : ℚ) * 10 ^ k < a * 2 ^ t := by
  simpa only [not_le] using (scaled_le_iff t k a c).not

theorem zpow_le_div_iff {a c : ℕ} (hc : 0 < c) (g : ℤ) :
    (10 : ℚ) ^ g ≤ a / c ↔ c * 10 ^ g.toNat ≤ a * 10 ^ (-g).toNat := by
  rw [zpow_eq_div_toNat (by norm_num), div_le_div_iff₀ (by positivity) (by exact_mod_cast hc)]
  rw [mul_comm _ (c : ℚ)]
  norm_cast

theorem Binary.leadingExponent_le {b : Binary} (hb : 0 < b.mantissa) :
    (10 : ℚ) ^ b.leadingExponent ≤ b.mantissa * 2 ^ b.exponent := by
  set num := b.mantissa * 2 ^ b.exponent.toNat with hnum
  set den := 2 ^ (-b.exponent).toNat with hden
  have hvalue : (b.mantissa : ℚ) * 2 ^ b.exponent = (num : ℚ) / den := by
    rw [zpow_eq_div_toNat two_ne_zero, hnum, hden]
    push_cast
    ring
  have hnum₀ : 0 < num := by positivity
  have hden₀ : 0 < den := by positivity
  rw [hvalue]
  unfold Binary.leadingExponent
  simp only [Nat.pow_eq, ← hnum, ← hden]
  split_ifs with h
  · exact (zpow_le_div_iff hden₀ _).mpr h
  · obtain ⟨hn, -⟩ := decimalLength_bounds num hnum₀
    obtain ⟨-, hd⟩ := decimalLength_bounds den hden₀
    have hL := one_le_decimalLength num
    calc (10 : ℚ) ^ ((decimalLength num : ℤ) - decimalLength den - 1)
        = 10 ^ (decimalLength num - 1) / 10 ^ decimalLength den := by
          rw [zpow_sub₀ (by norm_num), zpow_sub₀ (by norm_num), zpow_natCast, zpow_natCast,
            zpow_one, div_right_comm]
          congr 1
          rw [div_eq_iff (by norm_num), ← pow_succ, Nat.sub_add_cancel hL]
      _ ≤ num / den := by
          apply div_le_div₀ (by positivity) (by exact_mod_cast hn) (by exact_mod_cast hden₀)
          exact_mod_cast hd.le

theorem Binary.rounds_iff {b : Binary} (q : ℚ) : b.Rounds q ↔
    if b.mantissa % 2 = 0 then
      (4 * b.mantissa - (if b.narrowBelow then 1 else 2)) * 2 ^ (b.exponent - 2) ≤ q ∧
        q ≤ (4 * b.mantissa + 2) * 2 ^ (b.exponent - 2)
    else
      (4 * b.mantissa - (if b.narrowBelow then 1 else 2)) * 2 ^ (b.exponent - 2) < q ∧
        q < (4 * b.mantissa + 2) * 2 ^ (b.exponent - 2) := by
  have hu : (0 : ℚ) < 2 ^ (b.exponent - 2) := zpow_pos two_pos _
  have h2e : (2 : ℚ) ^ b.exponent = 4 * 2 ^ (b.exponent - 2) := by
    rw [zpow_sub₀ two_ne_zero]
    field_simp
    norm_num
  unfold Binary.Rounds
  simp only [h2e]
  split_ifs <;> simp only [le_div_iff₀ (by positivity : (0 : ℚ) < 4 * 2 ^ (b.exponent - 2)),
    div_le_iff₀ (by positivity : (0 : ℚ) < 4 * 2 ^ (b.exponent - 2)),
    lt_div_iff₀ (by positivity : (0 : ℚ) < 4 * 2 ^ (b.exponent - 2)),
    div_lt_iff₀ (by positivity : (0 : ℚ) < 4 * 2 ^ (b.exponent - 2))] <;>
    constructor <;> rintro ⟨h₁, h₂⟩ <;> constructor <;> linarith

theorem Binary.rounds_of_scaled {b : Binary} (hb : 0 < b.mantissa) {k : ℤ} {c : ℕ}
    (hlo : if b.mantissa % 2 = 0 then
        (4 * b.mantissa - if b.narrowBelow then 1 else 2) * (scales (b.exponent - 2) k).1 ≤
          c * (scales (b.exponent - 2) k).2
      else (4 * b.mantissa - if b.narrowBelow then 1 else 2) * (scales (b.exponent - 2) k).1 <
          c * (scales (b.exponent - 2) k).2)
    (hhi : if b.mantissa % 2 = 0 then
        c * (scales (b.exponent - 2) k).2 ≤ (4 * b.mantissa + 2) * (scales (b.exponent - 2) k).1
      else c * (scales (b.exponent - 2) k).2 < (4 * b.mantissa + 2) * (scales (b.exponent - 2) k).1) :
    b.Rounds (c * 10 ^ k) := by
  have hlow : (((4 * b.mantissa - if b.narrowBelow then 1 else 2 : ℕ)) : ℚ) =
      4 * b.mantissa - (if b.narrowBelow then 1 else 2) := by
    split_ifs <;> rw [Nat.cast_sub (by omega)] <;> push_cast <;> ring
  rw [Binary.rounds_iff]
  by_cases hp : b.mantissa % 2 = 0
  · rw [if_pos hp] at hlo hhi ⊢
    rw [scaled_le_iff, hlow] at hlo
    rw [le_scaled_iff] at hhi
    push_cast at hhi
    exact ⟨hlo, hhi⟩
  · rw [if_neg hp] at hlo hhi ⊢
    rw [scaled_lt_iff, hlow] at hlo
    rw [lt_scaled_iff] at hhi
    push_cast at hhi
    exact ⟨hlo, hhi⟩

theorem grid_cases {P Q : Prop} [Decidable P] [Decidable Q] {X : Bool} {x y d : Digits}
    (h : (if (decide P && X) = true then some x else if Q then some y else none) = some d) :
    (P ∧ x = d) ∨ (Q ∧ y = d) := by
  split_ifs at h with h₁ h₂
  · exact .inl ⟨by simp only [Bool.and_eq_true, decide_eq_true_eq] at h₁; exact h₁.1, Option.some.inj h⟩
  · exact .inr ⟨h₂, Option.some.inj h⟩

theorem Binary.onGrid_rounds {b : Binary} (hb : 0 < b.mantissa) {k : ℤ} {d : Digits}
    (h : b.onGrid k = some d) :
    0 < d.significand ∧ d.exponent = k ∧ b.Rounds (d.significand * 10 ^ d.exponent) := by
  obtain ⟨hnum, hden⟩ := scales_pos (b.exponent - 2) k
  unfold Binary.onGrid at h
  simp only [beq_iff_eq] at h
  have hbelow := Nat.div_mul_le_self (4 * b.mantissa * (scales (b.exponent - 2) k).1)
    (scales (b.exponent - 2) k).2
  have habove := (Nat.lt_mul_div_succ (4 * b.mantissa * (scales (b.exponent - 2) k).1) hden).trans_eq
    (Nat.mul_comm _ _)
  have hlow : (4 * b.mantissa - if b.narrowBelow then 1 else 2) * (scales (b.exponent - 2) k).1 ≤
      4 * b.mantissa * (scales (b.exponent - 2) k).1 := Nat.mul_le_mul_right _ (by omega)
  have hhigh : 4 * b.mantissa * (scales (b.exponent - 2) k).1 <
      (4 * b.mantissa + 2) * (scales (b.exponent - 2) k).1 :=
    Nat.mul_lt_mul_of_pos_right (by omega) hnum
  have le_of_ite : ∀ {a c : ℕ}, (if b.mantissa % 2 = 0 then a ≤ c else a < c) → a ≤ c :=
    fun h => by split_ifs at h <;> omega
  have ite_of_lt : ∀ {a c : ℕ}, a < c → if b.mantissa % 2 = 0 then a ≤ c else a < c :=
    fun h => by split_ifs <;> omega
  rcases grid_cases h with ⟨hin, rfl⟩ | ⟨hin, rfl⟩ <;> dsimp only
  · refine ⟨Nat.pos_of_ne_zero fun h0 => ?_, rfl, b.rounds_of_scaled hb hin (ite_of_lt (by omega))⟩
    have hpos : 0 < (4 * b.mantissa - if b.narrowBelow then 1 else 2) *
        (scales (b.exponent - 2) k).1 := Nat.mul_pos (by split <;> omega) hnum
    have h := le_of_ite hin
    rw [h0, zero_mul] at h
    omega
  · exact ⟨Nat.succ_pos _, rfl, b.rounds_of_scaled hb (ite_of_lt (by omega)) hin⟩

theorem grid_none {P Q : Prop} [Decidable P] [Decidable Q] {Y : Bool} {x y : Digits}
    (h : (if (decide P && (!decide Q || Y)) = true then some x else if Q then some y else none) =
      none) : ¬P ∧ ¬Q := by
  split_ifs at h with h₁ h₂
  refine ⟨fun hP => h₁ ?_, h₂⟩
  simp [hP, h₂]

theorem Binary.onGrid_lead_isSome {b : Binary} (hb : b.Canonical) :
    (b.onGrid (b.leadingExponent - 16)).isSome := by
  rw [Option.isSome_iff_ne_none]
  intro h
  obtain ⟨hnum, hden⟩ := scales_pos (b.exponent - 2) (b.leadingExponent - 16)
  unfold Binary.onGrid at h
  simp only [beq_iff_eq] at h
  obtain ⟨hbelow, habove⟩ := grid_none h
  set g := scales (b.exponent - 2) (b.leadingExponent - 16) with hg
  -- neither grid point passes, so the gap between them is at least the width of the interval
  have hbelow' : ∀ {a c : ℕ}, ¬(if b.mantissa % 2 = 0 then a ≤ c else a < c) → c ≤ a :=
    fun h => by split_ifs at h <;> omega
  have hsplit : (4 * b.mantissa + 2) * g.1 =
      (4 * b.mantissa - if b.narrowBelow then 1 else 2) * g.1 +
        (2 + if b.narrowBelow then 1 else 2) * g.1 := by
    rw [← Nat.add_mul]
    congr 1
    have := hb.pos
    split <;> omega
  have hnext := Nat.add_mul (4 * b.mantissa * g.1 / g.2) 1 g.2
  have hgap : (2 + if b.narrowBelow then 1 else 2) * g.1 ≤ 1 * g.2 := by
    have := hbelow' hbelow
    have := hbelow' habove
    omega
  rw [hg] at hgap
  rw [scaled_le_iff, Nat.cast_one, one_mul] at hgap
  -- the grid is at most a `10^16`-th of the value, so the width is at most `4·mantissa / 10^16`
  have hu : (0 : ℚ) < 2 ^ (b.exponent - 2) := zpow_pos two_pos _
  have hwidth : (((2 + if b.narrowBelow then 1 else 2 : ℕ)) : ℚ) * 10 ^ 16 * 2 ^ (b.exponent - 2) ≤
      4 * b.mantissa * 2 ^ (b.exponent - 2) := by
    calc (((2 + if b.narrowBelow then 1 else 2 : ℕ)) : ℚ) * 10 ^ 16 * 2 ^ (b.exponent - 2)
        ≤ 10 ^ (b.leadingExponent - 16) * 10 ^ 16 := by
          rw [mul_right_comm]
          exact mul_le_mul_of_nonneg_right hgap (by norm_num)
      _ = 10 ^ b.leadingExponent := by
          rw [zpow_sub₀ (by norm_num)]
          field_simp
      _ ≤ b.mantissa * 2 ^ b.exponent := Binary.leadingExponent_le hb.pos
      _ = 4 * b.mantissa * 2 ^ (b.exponent - 2) := by
          rw [zpow_sub₀ two_ne_zero]
          field_simp
          norm_num
  have hnat : (2 + if b.narrowBelow then 1 else 2) * 10 ^ 16 ≤ 4 * b.mantissa := by
    exact_mod_cast le_of_mul_le_mul_right hwidth hu
  -- which no mantissa below `2^53` reaches, nor `2^52` with its narrow gap below
  have hlt := hb.lt
  have hnarrow := hb.narrow
  split at hnat
  · have := hnarrow.mp ‹_›
    omega
  · omega

theorem Digits.normalize_value (d : Digits) :
    (d.normalize.significand : ℚ) * 10 ^ d.normalize.exponent = d.significand * 10 ^ d.exponent ∧
      (0 < d.significand → 0 < d.normalize.significand) := by
  fun_induction Digits.normalize d with
  | case1 d h ih =>
    obtain ⟨hv, hp⟩ := ih
    dsimp only at hv hp
    refine ⟨?_, fun _ => hp (by omega)⟩
    rw [hv]
    obtain ⟨q, hq⟩ := Nat.dvd_of_mod_eq_zero h.2
    simp only [hq, Nat.mul_div_cancel_left _ (by norm_num : 0 < 10), zpow_add_one₀ (by norm_num : (10 : ℚ) ≠ 0)]
    push_cast
    ring
  | case2 d h => exact ⟨rfl, id⟩

theorem Binary.shortest_rounds {b : Binary} (hb : b.Canonical) :
    0 < b.shortest.significand ∧ b.Rounds (b.shortest.significand * 10 ^ b.shortest.exponent) := by
  unfold Binary.shortest
  dsimp only
  obtain ⟨d, hd⟩ := Option.isSome_iff_exists.mp (List.findSome?_isSome_iff.mpr
    ⟨16, by simp, by simpa using b.onGrid_lead_isSome hb⟩ :
      ((List.range 17).findSome? fun n => b.onGrid (b.leadingExponent - (n : ℕ))).isSome)
  obtain ⟨n, -, hn⟩ := List.exists_of_findSome?_eq_some hd
  obtain ⟨hpos, -, hr⟩ := b.onGrid_rounds hb.pos hn
  obtain ⟨hv, hp⟩ := d.normalize_value
  rw [hd, Option.getD_some, hv]
  exact ⟨hp hpos, hr⟩

theorem digitValue_eq (ds : List Char) : digitValue ds = Nat.ofDigitChars 10 ds 0 := rfl

@[simp] theorem digitValue_toDigits (n : ℕ) : digitValue (Nat.toDigits 10 n) = n :=
  Nat.ofDigitChars_ten_toDigits

theorem digitValue_append_zeros (ds : List Char) (k : ℕ) :
    digitValue (ds ++ List.replicate k '0') = 10 ^ k * digitValue ds := by
  simp only [digitValue_eq, Nat.ofDigitChars_append, Nat.ofDigitChars_replicate_zero]

theorem isDigit_of_mem_toDigits {n : ℕ} {c : Char} (h : c ∈ Nat.toDigits 10 n) : c.isDigit = true :=
  Nat.isDigit_of_mem_toDigits (by norm_num) (by norm_num) h

theorem toDigits_head_ne_zero : ∀ {n : ℕ}, 0 < n →
    ∃ c ds, Nat.toDigits 10 n = c :: ds ∧ c ≠ '0' := by
  intro n
  induction n using Nat.strong_induction_on with
  | _ n ih =>
    intro hn
    rw [Nat.toDigits_eq_if (by norm_num)]
    split_ifs with h
    · refine ⟨_, [], rfl, ?_⟩
      interval_cases n <;> decide
    · obtain ⟨c, ds, hcd, hc⟩ := ih (n / 10) (by omega) (by omega)
      exact ⟨c, ds ++ [Nat.digitChar (n % 10)], by rw [hcd, List.cons_append], hc⟩

theorem toDigits_cons (n : ℕ) : ∃ c ds, Nat.toDigits 10 n = c :: ds ∧ c.isDigit = true := by
  obtain ⟨c, ds, h⟩ := List.ne_nil_iff_exists_cons.mp (Nat.toDigits_ne_nil (n := n) (b := 10))
  exact ⟨c, ds, h, isDigit_of_mem_toDigits (h ▸ List.mem_cons_self)⟩

theorem compact_toList (d : Digits) : d.compact.toList = Nat.toDigits 10 d.significand ++
    if d.exponent = 0 then []
    else if 1 ≤ d.exponent ∧ d.exponent ≤ 6 then List.replicate d.exponent.toNat '0'
    else 'e' :: if 0 ≤ d.exponent then Nat.toDigits 10 d.exponent.toNat
      else '-' :: Nat.toDigits 10 (-d.exponent).toNat := by
  unfold Digits.compact
  split_ifs with h₀ h₆ hs
  · simp
  · simp [zeros]
  · simp [Int.repr_eq_if, hs, show "e".toList = ['e'] from rfl]
  · simp [Int.repr_eq_if, hs, show "e".toList = ['e'] from rfl, show "-".toList = ['-'] from rfl]

theorem compact_toList_cons (d : Digits) : ∃ c cs, d.compact.toList = c :: cs ∧ c.isDigit = true := by
  obtain ⟨c, ds, hcd, hc⟩ := toDigits_cons d.significand
  rw [compact_toList, hcd, List.cons_append]
  exact ⟨c, _, rfl, hc⟩

theorem splitSign_cons {c : Char} (h₁ : c ≠ '-') (h₂ : c ≠ '+') (cs : List Char) :
    splitSign (c :: cs) = (false, c :: cs) := by
  unfold splitSign
  split <;> simp_all

theorem splitSign_of_isDigit {c : Char} (hc : c.isDigit = true) (cs : List Char) :
    splitSign (c :: cs) = (false, c :: cs) :=
  splitSign_cons (by rintro rfl; exact absurd hc (by decide)) (by rintro rfl; exact absurd hc (by decide)) cs

theorem readExponent_repr (e : ℤ) : readExponent (toString e).toList = some e := by
  rw [Int.toString_eq_repr, Int.repr_eq_if]
  split_ifs with he
  · obtain ⟨c, ds, hcd, hc⟩ := toDigits_cons e.toNat
    have hdigits := fun x hx => isDigit_of_mem_toDigits (n := e.toNat) (c := x) hx
    unfold readExponent
    simp only [Nat.toList_repr, hcd, splitSign_of_isDigit hc]
    rw [hcd] at hdigits
    simp only [ne_eq, reduceCtorEq, not_false_eq_true, List.all_eq_true, true_and]
    rw [if_pos hdigits, ← hcd, digitValue_toDigits]
    simp only [if_false, Option.some.injEq]
    omega
  · have hdigits := fun x hx => isDigit_of_mem_toDigits (n := (-e).toNat) (c := x) hx
    unfold readExponent
    simp only [String.toList_append, Nat.toList_repr]
    have hminus : "-".toList = ['-'] := rfl
    rw [hminus, List.singleton_append]
    simp only [splitSign, ne_eq, Nat.toDigits_ne_nil, not_false_eq_true, List.all_eq_true, true_and]
    rw [if_pos hdigits, digitValue_toDigits]
    simp only [if_true, Option.some.injEq]
    omega

theorem readUnsigned_digits {ds : List Char} (hne : ds ≠ []) (hd : ∀ c ∈ ds, c.isDigit = true) :
    readUnsigned ds = some ⟨digitValue ds, 0⟩ := by
  unfold readUnsigned
  rw [List.takeWhile_eq_self_iff.mpr hd, List.dropWhile_eq_nil_iff.mpr hd]
  simp [hne]

theorem readUnsigned_digits_exponent {ds es : List Char} (hne : ds ≠ [])
    (hd : ∀ c ∈ ds, c.isDigit = true) :
    readUnsigned (ds ++ 'e' :: es) = (readExponent es).map fun e => ⟨digitValue ds, e⟩ := by
  have he : ('e').isDigit = false := by decide
  unfold readUnsigned
  rw [List.takeWhile_append_of_pos hd, List.dropWhile_append_of_pos hd, List.takeWhile_cons_of_neg
    (by simp [he]), List.dropWhile_cons_of_neg (by simp [he])]
  simp [hne]

theorem readUnsigned_compact {d : Digits} (hd : 0 < d.significand) :
    ∃ d' : Digits, readUnsigned d.compact.toList = some d' ∧ 0 < d'.significand ∧
      (d'.significand : ℚ) * 10 ^ d'.exponent = d.significand * 10 ^ d.exponent := by
  have hdigits := fun x hx => isDigit_of_mem_toDigits (n := d.significand) (c := x) hx
  have hne : Nat.toDigits 10 d.significand ≠ [] := Nat.toDigits_ne_nil
  unfold Digits.compact
  split_ifs with h₀ h₆
  · refine ⟨⟨d.significand, 0⟩, ?_, hd, by rw [h₀]⟩
    rw [Nat.toString_eq_repr, Nat.toList_repr, readUnsigned_digits hne hdigits, digitValue_toDigits]
  · refine ⟨⟨10 ^ d.exponent.toNat * d.significand, 0⟩, ?_, by positivity, ?_⟩
    · rw [String.toList_append, Nat.toString_eq_repr, Nat.toList_repr, zeros, String.toList_ofList,
        readUnsigned_digits (by simp [hne]), digitValue_append_zeros, digitValue_toDigits]
      intro c hc
      rcases List.mem_append.mp hc with hc | hc
      · exact hdigits c hc
      · rw [List.eq_of_mem_replicate hc]
        rfl
    · dsimp only
      conv_rhs => rw [← Int.toNat_of_nonneg (show 0 ≤ d.exponent by omega), zpow_natCast]
      push_cast
      ring
  · refine ⟨d, ?_, hd, rfl⟩
    rw [String.toList_append, String.toList_append, Nat.toString_eq_repr, Nat.toList_repr,
      show "e".toList = ['e'] from rfl, List.append_assoc, List.singleton_append,
      readUnsigned_digits_exponent hne hdigits, readExponent_repr, digitValue_toDigits]
    rfl

theorem read?_of_splitSign {text : String} {negative : Bool} {c : Char} {cs : List Char}
    (hs : splitSign text.toList = (negative, c :: cs)) (hc : c = '.' ∨ c.isDigit = true) :
    read? text =
      (readUnsigned (c :: cs)).map fun d => if negative then -d.toFloat else d.toFloat := by
  have hlow : c.toLower = c := by
    rcases hc with rfl | h
    · rfl
    · have := Char.isDigit_iff_toNat.mp h
      simp only [Char.reduceToNat] at this
      simp only [Char.toLower]
      split
      · rename_i hA
        simp only [ge_iff_le, UInt32.le_iff_toNat_le, Char.toNat_val, Char.reduceToNat] at hA
        omega
      · rfl
  have hword : ∀ w : String, w.toList.head? = some 'i' ∨ w.toList.head? = some 'n' →
      String.ofList ((c :: cs).map Char.toLower) ≠ w := by
    rintro w hw rfl
    simp only [String.toList_ofList, List.map_cons, hlow, List.head?_cons, Option.some.injEq] at hw
    rcases hw with rfl | rfl <;> rcases hc with h | h <;> exact absurd h (by decide)
  unfold read?
  simp only [hs]
  rw [if_neg, if_neg]
  · simp [Function.comp_def]
  · exact hword "nan" (.inr rfl)
  · rintro (h | h)
    · exact hword "inf" (.inl rfl) h
    · exact hword "infinity" (.inl rfl) h

theorem read?_eq_map {c : Char} {cs : List Char} (hc : c = '.' ∨ c.isDigit = true) :
    read? (String.ofList (c :: cs)) = (readUnsigned (c :: cs)).map Digits.toFloat := by
  have h₁ : c ≠ '-' := by rintro rfl; rcases hc with h | h <;> exact absurd h (by decide)
  have h₂ : c ≠ '+' := by rintro rfl; rcases hc with h | h <;> exact absurd h (by decide)
  rw [read?_of_splitSign (by rw [String.toList_ofList, splitSign_cons h₁ h₂]) hc]
  simp only [Bool.false_eq_true, if_false]

theorem read?_compact {d : Digits} (hd : 0 < d.significand) :
    ∃ d' : Digits, read? d.compact = some d'.toFloat ∧ 0 < d'.significand ∧
      (d'.significand : ℚ) * 10 ^ d'.exponent = d.significand * 10 ^ d.exponent := by
  obtain ⟨c, cs, hcs, hc⟩ := compact_toList_cons d
  obtain ⟨d', hread, hpos, hv⟩ := readUnsigned_compact hd
  refine ⟨d', ?_, hpos, hv⟩
  rw [← String.ofList_toList (s := d.compact), hcs, read?_eq_map (.inr hc), ← hcs, hread]
  rfl

theorem source_of_zero {x : Float} {negative : Bool} (hx : Shape.ofFloat x = .zero negative) :
    source x = if negative then "-0" else "0" := by
  simp only [source, writeWith, hx]

theorem source_of_finite {x : Float} {negative : Bool} {b : Binary}
    (hx : Shape.ofFloat x = .finite negative b) :
    source x = (if negative then "-" else "") ++ b.shortest.compact := by
  simp only [source, writeWith, hx]

theorem read?_source_of_finite {x : Float} {b : Binary} (hx : Shape.ofFloat x = .finite false b) :
    read? (source x) = some x := by
  obtain ⟨hb, -⟩ := eq_ofModel_pack hx
  obtain ⟨hpos, hr⟩ := b.shortest_rounds hb
  obtain ⟨d', hread, hpos', hv⟩ := read?_compact hpos
  have hsource : source x = b.shortest.compact := by
    simp [source_of_finite hx]
  rw [hsource, hread, Digits.toFloat_eq hx hpos' (by rw [hv]; exact hr)]

theorem eq_of_toBits_eq {x y : Float} (h : x.toBits.toNat = y.toBits.toNat) : x = y := by
  obtain ⟨⟨bx, vx⟩⟩ := x
  obtain ⟨⟨bits, valid⟩⟩ := y
  have hb : bx = bits := UInt64.toNat_inj.mp h
  subst hb
  rfl

theorem bits_of_shape_zero {n : ℕ} {negative : Bool} (hn : n < 2 ^ 64)
    (h : Shape.ofBits n = .zero negative) : n = if negative then 2 ^ 63 else 0 := by
  rw [shape_ofBits_eq] at h
  split_ifs at h
  have hs := Shape.zero.inj h
  norm_num at hn
  cases negative <;> simp at hs ⊢ <;> omega

theorem eq_zero_of_shape {x : Float} (hx : Shape.ofFloat x = .zero false) : x = 0 := by
  apply eq_of_toBits_eq
  rw [bits_of_shape_zero x.toBits.toNat_lt hx]
  decide +kernel

/-- A plain double: finite, with its sign bit clear. Number tokens denote plain doubles. -/
def isPlain (x : Float) : Bool :=
  match Shape.ofFloat x with
  | .zero false | .finite false _ => true
  | _ => false

theorem isPlain_iff {x : Float} :
    isPlain x = true ↔ Shape.ofFloat x = .zero false ∨ ∃ b, Shape.ofFloat x = .finite false b := by
  unfold isPlain
  split <;> simp_all

theorem read?_source {x : Float} (hx : isPlain x = true) : read? (source x) = some x := by
  rcases isPlain_iff.mp hx with hz | ⟨b, hb⟩
  · have hsource : source x = String.ofList ['0'] := by
      rw [source_of_zero hz]
      rfl
    have h0 : digitValue ['0'] = 0 := rfl
    rw [hsource, read?_eq_map (.inr rfl),
      readUnsigned_digits (by simp) (fun c hc => by rw [List.mem_singleton.mp hc]; rfl),
      eq_zero_of_shape hz, h0]
    simp [Digits.toFloat]
  · exact read?_source_of_finite hb

theorem source_eq_compact {x : Float} (hx : isPlain x = true) :
    ∃ d : Digits, source x = d.compact ∧ (0 < d.significand ∨ d = ⟨0, 0⟩) := by
  rcases isPlain_iff.mp hx with hz | ⟨b, hb⟩
  · exact ⟨⟨0, 0⟩, by rw [source_of_zero hz]; rfl, .inr rfl⟩
  · obtain ⟨hb', -⟩ := eq_ofModel_pack hb
    exact ⟨b.shortest, by simp [source_of_finite hb], .inl (b.shortest_rounds hb').1⟩

open Float.Model Float.Model.UnpackedFloat

/-- An unpacked double whose packing has a clear sign bit: a positive one, or not a number. -/
def SignClear : UnpackedFloat → Prop
  | .infinity s | .zero s | .finite s _ _ _ => s = .positive
  | .notANumber => True

theorem packComponents_lt (e : BitVec 11) (m : BitVec 52) :
    (packComponents .binary64 .positive e m).toNat < 2 ^ 63 := by
  have he := e.isLt
  have hm := m.isLt
  simp only [packComponents, toNat_append_eq, Sign.toBitVec, BitVec.toNat_ofNat]
  norm_num at he hm ⊢
  omega

theorem pack_lt_of_signClear {u : UnpackedFloat} (hu : SignClear u) :
    (UnpackedFloat.pack .binary64 u).toNat < 2 ^ 63 := by
  cases u with
  | infinity s =>
    cases hu
    exact packComponents_lt _ _
  | notANumber => exact packComponents_lt _ _
  | zero s =>
    cases hu
    exact packComponents_lt _ _
  | finite s m e h =>
    cases hu
    unfold UnpackedFloat.pack
    dsimp only
    split_ifs <;> exact packComponents_lt _ _

theorem signClear_roundWithAccuracy (m : ℕ) (e : ℤ) (acc : Accuracy) :
    SignClear (roundWithAccuracy .binary64 .positive m e acc) := by
  unfold roundWithAccuracy
  dsimp only
  split_ifs <;> rfl

theorem signClear_mul {m₁ m₂ : ℕ} {e₁ e₂ : ℤ} (h₁ : 0 < m₁) (h₂ : 0 < m₂) :
    SignClear (UnpackedFloat.mul .binary64 (.finite .positive m₁ e₁ h₁) (.finite .positive m₂ e₂ h₂)) :=
  signClear_roundWithAccuracy _ _ _

theorem signClear_div {m₁ m₂ : ℕ} {e₁ e₂ : ℤ} (h₁ : 0 < m₁) (h₂ : 0 < m₂) :
    SignClear (UnpackedFloat.div .binary64 (.finite .positive m₁ e₁ h₁) (.finite .positive m₂ e₂ h₂)) :=
  signClear_roundWithAccuracy _ _ _

theorem signClear_ofScientific (m : ℕ) (e : ℤ) :
    SignClear (UnpackedFloat.ofScientific .binary64 m e) := by
  unfold UnpackedFloat.ofScientific
  split_ifs
  · rfl
  · rfl
  · rfl
  · exact signClear_mul _ _
  · exact signClear_div _ _

theorem toBits_ofModel_pack (u : UnpackedFloat) :
    (Float.ofModel (Float.Model.pack u)).toBits.toNat = (UnpackedFloat.pack .binary64 u).toNat :=
  UInt64.toNat_ofBitVec

theorem ofScientific_toBits_lt {m : ℕ} (hm : 0 < m) (s : Bool) (e : ℕ) :
    (Float.ofScientific m s e).toBits.toNat < 2 ^ 63 := by
  unfold Float.ofScientific
  split
  · rename_i hfast
    obtain ⟨bt, hbt, hut, -⟩ := isPowerOfTen_spec
      (isPowerOfTen_table e (by simp [Float.exactlyRepresentablePowersOfTen]; omega))
    obtain ⟨bm, hbm, hrm, -, -⟩ := exists_canonical_nat hm hfast.1
    have hum := toFloat_unpack hbm hm hfast.1 hrm
    cases s
    · change (Float.ofModel (Float.Model.mul _ _)).toBits.toNat < _
      unfold Float.Model.mul
      rw [toBits_ofModel_pack, hum, hut]
      exact pack_lt_of_signClear (signClear_mul _ _)
    · change (Float.ofModel (Float.Model.div _ _)).toBits.toNat < _
      unfold Float.Model.div
      rw [toBits_ofModel_pack, hum, hut]
      exact pack_lt_of_signClear (signClear_div _ _)
  · change (Float.ofModel (Float.Model.pack _)).toBits.toNat < _
    rw [toBits_ofModel_pack]
    exact pack_lt_of_signClear (signClear_ofScientific _ _)

theorem toFloat_toBits_lt (d : Digits) : d.toFloat.toBits.toNat < 2 ^ 63 := by
  have hzero : (0 : Float).toBits.toNat < 2 ^ 63 := by decide +kernel
  unfold Digits.toFloat
  dsimp only
  split_ifs with h₀
  · exact hzero
  · exact ofScientific_toBits_lt one_pos _ _
  · exact hzero
  · exact ofScientific_toBits_lt (Nat.pos_of_ne_zero h₀) _ _
  · exact ofScientific_toBits_lt (Nat.pos_of_ne_zero h₀) _ _

theorem isPlain_of_toBits_lt {x : Float} (h : x.toBits.toNat < 2 ^ 63) (hf : isFinite x = true) :
    isPlain x = true := by
  have hs : x.toBits.toNat / 9223372036854775808 % 2 = 0 := by
    rw [Nat.div_eq_of_lt (by simpa using h)]
  unfold isFinite at hf
  unfold isPlain
  unfold Shape.ofFloat at hf ⊢
  rw [shape_ofBits_eq] at hf ⊢
  simp only [hs, zero_ne_one, decide_false] at hf ⊢
  split_ifs at hf ⊢ <;> simp_all

theorem isPlain_of_read? {c : Char} {cs : List Char} {x : Float} (hc : c = '.' ∨ c.isDigit = true)
    (h : read? (String.ofList (c :: cs)) = some x) (hf : isFinite x = true) : isPlain x = true := by
  rw [read?_eq_map hc] at h
  obtain ⟨d, -, rfl⟩ := Option.map_eq_some_iff.mp h
  exact isPlain_of_toBits_lt (toFloat_toBits_lt d) hf

end Mixfix.Decimal
