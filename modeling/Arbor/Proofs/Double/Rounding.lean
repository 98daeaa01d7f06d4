import Arbor.Proofs.Double.Positive

/-!
# The error of one operation

A positive double stands for a rational number (`Double.Value`). Of what an operation yields, rounding keeps 53 binary
digits: the mantissa is shifted right with two residual bits, which describe what has been shifted out
(`Double.Describes`), and the bits decide the last digit. So the result is off by one part in `2 ^ 53` at most, and not
at all where 53 digits are enough (`Double.Rounds`). Products and quotients of numbers in the middle range are rounded
in this way (`Double.Value.mul`, `Double.Value.div`), and natural numbers below `2 ^ 53` are kept (`Double.value_ofNat`).
-/

namespace Arbor
namespace Double

open Float.Model Float.Model.UnpackedFloat

/-! ## Residual bits -/

/-- An extended mantissa describes a number: its whole part, whether a half is beyond it, and whether there is more. -/
structure Describes (em : ExtendedMantissa) (t : ℚ) : Prop where
  le : em.mantissa ≤ t
  lt : t < em.mantissa + 1
  round : em.roundBit = true ↔ em.mantissa + 1 / 2 ≤ t
  sticky : em.stickyBit = false ↔ t = em.mantissa ∨ t = em.mantissa + 1 / 2

theorem describes_exact (m : Nat) : Describes (.ofMantissaAndAccuracy m .exact) m where
  le := le_refl _
  lt := by simp [ExtendedMantissa.ofMantissaAndAccuracy]
  round := by simp [ExtendedMantissa.ofMantissaAndAccuracy]
  sticky := by simp [ExtendedMantissa.ofMantissaAndAccuracy]

/-- The quotient of a division with rest. -/
theorem describes_quotient (a : Nat) {b : Nat} (hb : 0 < b) :
    Describes (.ofMantissaAndAccuracy (a / b) (accuracyOfFraction (a % b) b)) (a / b : ℚ) := by
  have hlt := Nat.mod_lt a hb
  have hpos : (0 : ℚ) < b := by exact_mod_cast hb
  have hsplit : (a / b : ℚ) = (a / b : ℕ) + (a % b : ℕ) / b := by
    rw [eq_comm, ← mul_left_inj' hpos.ne', add_mul, div_mul_cancel₀ _ hpos.ne', div_mul_cancel₀ _ hpos.ne']
    exact_mod_cast Nat.div_add_mod' a b
  have hnonneg : (0 : ℚ) ≤ (a % b : ℕ) / b := by positivity
  have hone : ((a % b : ℕ) : ℚ) / b < 1 := (div_lt_one hpos).mpr (by exact_mod_cast hlt)
  have hhalf : (1 / 2 : ℚ) ≤ (a % b : ℕ) / b ↔ b ≤ 2 * (a % b) := by
    rw [div_le_div_iff₀ (by norm_num) hpos, one_mul, mul_comm]
    exact_mod_cast Iff.rfl
  have hzero : ((a % b : ℕ) : ℚ) / b = 0 ↔ a % b = 0 := by
    rw [div_eq_zero_iff]
    simp [hb.ne']
  have heq : ((a % b : ℕ) : ℚ) / b = 1 / 2 ↔ 2 * (a % b) = b := by
    rw [div_eq_div_iff hpos.ne' (by norm_num), one_mul, mul_comm]
    exact_mod_cast Iff.rfl
  have hmantissa : (ExtendedMantissa.ofMantissaAndAccuracy (a / b) (accuracyOfFraction (a % b) b)).mantissa = a / b := by
    unfold accuracyOfFraction
    split
    · rfl
    · cases compare (2 * (a % b)) b <;> rfl
  refine ⟨?_, ?_, ?_, ?_⟩
  · rw [hmantissa, hsplit]
    exact le_add_of_nonneg_right hnonneg
  · rw [hmantissa, hsplit]
    exact add_lt_add_right hone _
  · rw [hmantissa, hsplit, add_le_add_iff_left, hhalf]
    unfold accuracyOfFraction
    split
    · simp [ExtendedMantissa.ofMantissaAndAccuracy]
      omega
    · cases hcompare : compare (2 * (a % b)) b <;> simp [ExtendedMantissa.ofMantissaAndAccuracy]
      · exact Nat.compare_eq_lt.mp hcompare
      · exact (Nat.compare_eq_eq.mp hcompare).ge
      · exact (Nat.compare_eq_gt.mp hcompare).le
  · rw [hmantissa, hsplit, add_eq_left, add_right_inj, hzero, heq]
    unfold accuracyOfFraction
    split
    · simp [ExtendedMantissa.ofMantissaAndAccuracy, *]
    · cases hcompare : compare (2 * (a % b)) b <;> simp [ExtendedMantissa.ofMantissaAndAccuracy, *]
      · exact (Nat.compare_eq_lt.mp hcompare).ne
      · exact Nat.compare_eq_eq.mp hcompare
      · exact (Nat.compare_eq_gt.mp hcompare).ne'

variable {em : ExtendedMantissa} {t : ℚ}

theorem Describes.shiftRightOne (h : Describes em t) : Describes em.shiftRightOne (t / 2) := by
  obtain ⟨m, r, s⟩ := em
  obtain ⟨hle, hlt, hround, hsticky⟩ := h
  simp only at hle hlt hround hsticky
  have hm : (m : ℚ) = 2 * (m / 2 : ℕ) + (m % 2 : ℕ) := by exact_mod_cast (Nat.div_add_mod m 2).symm
  have hdigit : m % 2 = 0 ∨ m % 2 = 1 := by omega
  have hrest : ((r || s) = false) ↔ t = m := by
    rw [Bool.or_eq_false_iff, hsticky, Bool.eq_false_iff, Ne, hround]
    constructor
    · rintro ⟨hhalf, rfl | rfl⟩
      · rfl
      · exact absurd (le_refl _) hhalf
    · rintro rfl
      exact ⟨by norm_num, Or.inl rfl⟩
  refine ⟨?_, ?_, ?_, ?_⟩ <;> simp only [ExtendedMantissa.shiftRightOne]
  · rcases hdigit with h | h <;> rw [h] at hm <;> push_cast at hm ⊢ <;> linarith
  · rcases hdigit with h | h <;> rw [h] at hm <;> push_cast at hm ⊢ <;> linarith
  · rcases hdigit with h | h <;> rw [h] at hm <;> push_cast at hm ⊢ <;> simp [h] <;> linarith
  · rw [hrest]
    rcases hdigit with h | h <;> rw [h] at hm <;> push_cast at hm ⊢
    · refine ⟨fun ht => Or.inl (by linarith), ?_⟩
      rintro (ht | ht) <;> linarith
    · refine ⟨fun ht => Or.inr (by linarith), ?_⟩
      rintro (ht | ht) <;> linarith

theorem Describes.shiftRight (h : Describes em t) : ∀ k,
    Describes (Nat.repeat ExtendedMantissa.shiftRightOne k em) (t / 2 ^ k)
  | 0 => by simpa [Nat.repeat] using h
  | k + 1 => by
    rw [Nat.repeat, pow_succ, ← div_div]
    exact (h.shiftRight k).shiftRightOne

/-- The last digit is off by one half at most. -/
theorem Describes.abs_rounded_sub_le (h : Describes em t) : |(em.roundedMantissa : ℚ) - t| ≤ 1 / 2 := by
  obtain ⟨m, r, s⟩ := em
  obtain ⟨hle, hlt, hround, hsticky⟩ := h
  rw [abs_le]
  cases r <;> cases s <;> simp [ExtendedMantissa.roundedMantissa, ExtendedMantissa.accuracy,
    Accuracy.roundToNearestEven] at hle hlt hround hsticky ⊢
  · rcases hsticky with rfl | rfl <;> constructor <;> linarith
  · constructor <;> linarith
  · have hdigit : ((m % 2 : ℕ) : ℚ) = 0 ∨ ((m % 2 : ℕ) : ℚ) = 1 := by
      have : m % 2 = 0 ∨ m % 2 = 1 := by omega
      exact_mod_cast this
    rcases hsticky with rfl | rfl <;> rcases hdigit with hd | hd <;> rw [hd] <;> constructor <;> linarith
  · constructor <;> linarith

/-- Whole numbers are kept. -/
theorem Describes.rounded_eq {n : Nat} (h : Describes em n) : em.roundedMantissa = n := by
  obtain ⟨m, r, s⟩ := em
  obtain ⟨hle, hlt, hround, hsticky⟩ := h
  simp only at hle hlt hround hsticky
  obtain rfl : n = m := by
    have hlow : m ≤ n := by exact_mod_cast hle
    have hhigh : n < m + 1 := by exact_mod_cast hlt
    omega
  obtain rfl : s = false := hsticky.mpr (Or.inl rfl)
  obtain rfl : r = false := by
    rw [Bool.eq_false_iff, Ne, hround]
    norm_num
  rfl

/-! ## One rounding -/

/-- One number is another one, rounded to 53 digits: off by one part in `2 ^ 53` at most, and not at all where those
digits are enough. -/
structure Rounds (r q : ℚ) : Prop where
  near : |r - q| ≤ q / 2 ^ 53
  exact : ∀ (n : Nat) (k : Int), n < 2 ^ 53 → q = n * 2 ^ k → r = q

/-- The first shift leaves 53 digits of a mantissa that has as many. -/
theorem shift_full {m : Nat} {e : Int} {acc : Accuracy} {t : ℚ} (hm : 2 ^ 52 ≤ m) (he : -1074 ≤ e)
    (ht : Describes (.ofMantissaAndAccuracy m acc) t) : ∃ (em : ExtendedMantissa) (k : Nat),
      shiftToTargetExponent .binary64 m e acc = (em, e + k) ∧ Describes em (t / 2 ^ k) ∧ 2 ^ 52 ≤ em.mantissa ∧
        em.mantissa < 2 ^ 53 := by
  have hpos : m ≠ 0 := by omega
  have hmin : Format.binary64.minExponent = -1074 := by decide
  have hbits : Format.binary64.mantissaBits = 53 := by decide
  obtain ⟨k, hk⟩ := Nat.exists_eq_add_of_le ((Nat.le_log2 hpos).mpr hm)
  have htarget : (Format.binary64.targetExponent (totalExponent m e) - e).toNat = k := by
    rw [Format.targetExponent, totalExponent, hmin, hbits]
    omega
  have hwhole : (Nat.repeat ExtendedMantissa.shiftRightOne k (.ofMantissaAndAccuracy m acc)).mantissa = m / 2 ^ k := by
    rw [mantissa_shiftRight]
    congr 1
    cases acc with
    | exact => rfl
    | inexact o => cases o <;> rfl
  refine ⟨_, k, ?_, ht.shiftRight k, ?_, ?_⟩
  · unfold shiftToTargetExponent shiftToExponent
    simp only [htarget]
    rfl
  · rw [hwhole, Nat.le_div_iff_mul_le (Nat.two_pow_pos k), ← Nat.pow_add, ← hk]
    exact Nat.log2_self_le hpos
  · rw [hwhole, Nat.div_lt_iff_lt_mul (Nat.two_pow_pos k), ← Nat.pow_add]
    have hhigh := Nat.lt_log2_self (n := m)
    rw [hk] at hhigh
    exact hhigh.trans_eq (by ring_nf)

theorem roundedMantissa_le (em : ExtendedMantissa) : em.roundedMantissa ≤ em.mantissa + 1 := by
  obtain ⟨m, r, s⟩ := em
  cases r <;> cases s <;> simp [ExtendedMantissa.roundedMantissa, ExtendedMantissa.accuracy,
    Accuracy.roundToNearestEven]
  omega

/-- The second shift only moves a carry out of the last digit. -/
theorem round_carry {m : Nat} {e e₁ : Int} {acc : Accuracy} {em : ExtendedMantissa} (s : Sign)
    (hshift : shiftToTargetExponent .binary64 m e acc = (em, e₁)) (hlow : 2 ^ 52 ≤ em.mantissa)
    (hhigh : em.mantissa < 2 ^ 53) (he : -1074 ≤ e₁) : ∃ m' e' h, roundWithAccuracy .binary64 s m e acc =
      .finite s m' e' h ∧ 2 ^ 52 ≤ m' ∧ m' < 2 ^ 53 ∧ -1074 ≤ e' ∧ (m' * 2 ^ e' : ℚ) = em.roundedMantissa * 2 ^ e₁ := by
  have hrlow := hlow.trans (le_roundedMantissa em)
  have hrhigh := roundedMantissa_le em
  obtain ⟨r, hr⟩ : ∃ r, em.roundedMantissa = r := ⟨_, rfl⟩
  rw [hr] at hrlow hrhigh ⊢
  rcases Nat.lt_or_ge r (2 ^ 53) with hlt | hge
  · have h0 := shiftToTargetExponent_stored (by omega) (Or.inl ⟨hrlow, hlt, he⟩) 0
    rw [Nat.pow_zero, Nat.mul_one, Nat.cast_zero, Int.sub_zero] at h0
    refine ⟨r, e₁, by omega, ?_, hrlow, hlt, he, rfl⟩
    unfold roundWithAccuracy
    simp only [hshift, hr, h0]
    rw [dif_neg (by omega)]
  · obtain rfl : r = 2 ^ 53 := by omega
    have h1 := shiftToTargetExponent_stored (e := e₁ + 1) (by decide) (Or.inl ⟨le_refl (2 ^ 52), by decide, by omega⟩) 1
    rw [← Nat.pow_add, Nat.cast_one, add_sub_cancel_right] at h1
    refine ⟨2 ^ 52, e₁ + 1, by decide, ?_, le_refl _, by decide, by omega, ?_⟩
    · unfold roundWithAccuracy
      simp only [hshift, hr, h1]
      rw [dif_neg (by decide)]
    · rw [zpow_add_one₀ (by norm_num)]
      push_cast
      ring

/-- Fewer digits than 53 have no exponent below the one of all digits. -/
theorem whole_of_digits {t : ℚ} {e₁ k : Int} {n : Nat} (hlarge : 2 ^ 52 ≤ t) (hn : n < 2 ^ 53)
    (h : t * 2 ^ e₁ = n * 2 ^ k) : ∃ i : Nat, t = i := by
  have hscale : (0 : ℚ) < 2 ^ e₁ := by positivity
  have ht : t = n * 2 ^ (k - e₁) := by
    rw [← mul_left_inj' hscale.ne', h, mul_assoc, ← zpow_add₀ (by norm_num), sub_add_cancel]
  have hexponent : e₁ ≤ k := by
    by_contra hlt
    have hdown : (2 : ℚ) ^ (k - e₁) ≤ 2 ^ (-1 : Int) := zpow_le_zpow_right₀ (by norm_num) (by omega)
    have hbound : (n : ℚ) < 2 ^ 53 := by exact_mod_cast hn
    have hhalf := mul_le_mul_of_nonneg_left hdown (Nat.cast_nonneg (α := ℚ) n)
    rw [← ht, zpow_neg_one] at hhalf
    linarith
  obtain ⟨i, hi⟩ := Int.eq_ofNat_of_zero_le (show 0 ≤ k - e₁ by omega)
  refine ⟨n * 2 ^ i, ?_⟩
  rw [ht, hi, zpow_natCast]
  push_cast
  rfl

/-- **A mantissa with all its digits is rounded to a stored pair.** -/
theorem round_rounds {m : Nat} {e : Int} {acc : Accuracy} {t : ℚ} (s : Sign) (hm : 2 ^ 52 ≤ m) (he : -1074 ≤ e)
    (ht : Describes (.ofMantissaAndAccuracy m acc) t) : ∃ m' e' h, roundWithAccuracy .binary64 s m e acc =
      .finite s m' e' h ∧ 2 ^ 52 ≤ m' ∧ m' < 2 ^ 53 ∧ -1074 ≤ e' ∧ Rounds (m' * 2 ^ e') (t * 2 ^ e) := by
  obtain ⟨em, k, hshift, hdescribes, hlow, hhigh⟩ := shift_full hm he ht
  obtain ⟨m', e', h, hround, hm', hlt', he', hvalue⟩ := round_carry s hshift hlow hhigh (by omega)
  have hscale : (0 : ℚ) < 2 ^ (e + k) := by positivity
  have hsplit : t * 2 ^ e = t / 2 ^ k * 2 ^ (e + k) := by
    rw [zpow_add₀ (by norm_num), zpow_natCast]
    field_simp
  have hlarge : (2 ^ 52 : ℚ) ≤ t / 2 ^ k := le_trans (by exact_mod_cast hlow) hdescribes.le
  refine ⟨m', e', h, hround, hm', hlt', he', ?_, fun n j hn hexact => ?_⟩
  · rw [hvalue, hsplit, ← sub_mul, abs_mul, abs_of_pos hscale, mul_div_right_comm]
    refine mul_le_mul_of_nonneg_right (hdescribes.abs_rounded_sub_le.trans ?_) hscale.le
    rw [div_le_div_iff₀ (by norm_num) (by norm_num)]
    linarith
  · obtain ⟨i, hi⟩ := whole_of_digits hlarge hn (hsplit.symm.trans hexact)
    rw [hi] at hdescribes
    rw [hvalue, hsplit, hi, hdescribes.rounded_eq]

/-! ## Packing -/

/-- **A normal pair is unpacked as it was packed.** -/
theorem unpack_pack (s : Sign) {m : Nat} {e : Int} (hlow : 2 ^ 52 ≤ m) (hhigh : m < 2 ^ 53) (he : -1074 ≤ e)
    (hle : e ≤ 971) (h : 0 < m) : unpack .binary64 (pack .binary64 (.finite s m e h)) = .finite s m e h := by
  obtain ⟨f, rfl⟩ := Nat.exists_eq_add_of_le hlow
  obtain ⟨b, hb⟩ := Int.eq_ofNat_of_zero_le (show 0 ≤ e + 1075 by omega)
  obtain rfl : e = b - 1075 := by omega
  have hf : (BitVec.ofNat 52 f).toNat = f := by
    rw [BitVec.toNat_ofNat]
    exact Nat.mod_eq_of_lt (by omega)
  have hb' : (BitVec.ofNat 11 b).toNat = b := by
    rw [BitVec.toNat_ofNat]
    exact Nat.mod_eq_of_lt (by omega)
  have hinfinite : BitVec.ofNat 11 b ≠ -1#11 := by
    rw [BitVec.toNat_ne, hb']
    show b ≠ 2047
    omega
  have hzero : BitVec.ofNat 11 b ≠ 0#11 := by
    rw [BitVec.toNat_ne, hb']
    show b ≠ 0
    omega
  have hpack : pack .binary64 (.finite s (2 ^ 52 + f) (b - 1075) h) =
      packComponents .binary64 s (BitVec.ofNat 11 b) (BitVec.ofNat 52 f) := by
    have hbias : (Format.binary64.exponentBias : Int) + (52 : Nat) = 1075 := by decide
    have hnormal := @pack_normal .binary64 s (BitVec.ofNat 11 b) (BitVec.ofNat 52 f) hinfinite
      (Nat.add_pos_left (by decide) _)
    simpa only [hf, hb', hbias] using hnormal
  have hsign : Sign.ofBitVec (unpackSign (packComponents .binary64 s (BitVec.ofNat 11 b) (BitVec.ofNat 52 f))) = s := by
    rw [unpackSign_packComponents]
    cases s <;> rfl
  rw [hpack]
  rcases unpack_cases (packComponents .binary64 s (BitVec.ofNat 11 b) (BitVec.ofNat 52 f)) with
    ⟨hi, -, -⟩ | ⟨hi, -, -⟩ | ⟨hz, -, -⟩ | ⟨hz, -⟩ | ⟨-, -, hpos, hu⟩
  · exact absurd (unpackExponent_packComponents.symm.trans hi) hinfinite
  · exact absurd (unpackExponent_packComponents.symm.trans hi) hinfinite
  · exact absurd (unpackExponent_packComponents.symm.trans hz) hzero
  · exact absurd (unpackExponent_packComponents.symm.trans hz) hzero
  · rw [hu, hsign]
    simp only [unpackExponent_packComponents, unpackMantissa_packComponents, hf, hb']

/-! ## Values -/

/-- A double of full precision has this sign and this size. -/
def Value (x : Float) (s : Sign) (q : ℚ) : Prop :=
  ∃ m e h, x.toModel.unpack = .finite s m e h ∧ 2 ^ 52 ≤ m ∧ m < 2 ^ 53 ∧ -1074 ≤ e ∧ e ≤ 971 ∧ q = m * 2 ^ e

section Size

variable {m : Nat} {e : Int} {q : ℚ}

theorem size_bounds (hlow : 2 ^ 52 ≤ m) (hhigh : m < 2 ^ 53) :
    (2 : ℚ) ^ (e + 52) ≤ m * 2 ^ e ∧ (m * 2 ^ e : ℚ) < 2 ^ (e + 53) := by
  have hscale : (0 : ℚ) < 2 ^ e := by positivity
  rw [zpow_add₀ (by norm_num), zpow_add₀ (by norm_num), mul_comm (2 ^ e : ℚ), mul_comm (2 ^ e : ℚ)]
  exact ⟨mul_le_mul_of_nonneg_right (by exact_mod_cast hlow) hscale.le,
    mul_lt_mul_of_pos_right (by exact_mod_cast hhigh) hscale⟩

theorem le_exponent {a : Int} (hhigh : m < 2 ^ 53) (hlow : 2 ^ 52 ≤ m) (h : (2 : ℚ) ^ a ≤ m * 2 ^ e) : a ≤ e + 52 := by
  have := (zpow_lt_zpow_iff_right₀ (by norm_num)).mp (h.trans_lt (size_bounds hlow hhigh).2)
  omega

theorem exponent_le {a : Int} (hhigh : m < 2 ^ 53) (hlow : 2 ^ 52 ≤ m) (h : (m * 2 ^ e : ℚ) ≤ 2 ^ a) : e + 52 ≤ a :=
  (zpow_le_zpow_iff_right₀ (by norm_num)).mp ((size_bounds hlow hhigh).1.trans h)

end Size

/-- What an operation has rounded is the value of its result, if it is not too large. -/
theorem value_of_round {x : Float} {u : UnpackedFloat} {s : Sign} {q : ℚ} (hx : x.toModel = Float.Model.pack u)
    (hround : ∃ m e h, u = .finite s m e h ∧ 2 ^ 52 ≤ m ∧ m < 2 ^ 53 ∧ -1074 ≤ e ∧ Rounds (m * 2 ^ e) q)
    (hq : q ≤ 2 ^ 1000) : ∃ r, Value x s r ∧ Rounds r q := by
  obtain ⟨m, e, h, rfl, hlow, hhigh, he, hrounds⟩ := hround
  have hle : e ≤ 971 := by
    have hnear := (abs_le.mp hrounds.near).2
    have hnonneg : 0 ≤ q / 2 ^ 53 := (abs_nonneg _).trans hrounds.near
    have hdouble : (m * 2 ^ e : ℚ) ≤ 2 ^ (1001 : Int) :=
      calc (m * 2 ^ e : ℚ) ≤ q + q := by linarith
        _ ≤ 2 ^ 1000 + 2 ^ 1000 := add_le_add hq hq
        _ = 2 ^ (1001 : Int) := by rw [← two_mul, ← pow_succ']; exact (zpow_natCast _ 1001).symm
    have := exponent_le hhigh hlow hdouble
    omega
  refine ⟨m * 2 ^ e, ⟨m, e, h, ?_, hlow, hhigh, he, hle, rfl⟩, hrounds⟩
  rw [hx]
  exact unpack_pack s hlow hhigh he hle h

variable {x y : Float} {s s' : Sign} {p q : ℚ}

/-- The opposite number has the other sign. -/
theorem Value.neg (hx : Value x s q) : Value (-x) (-s) q := by
  obtain ⟨m, e, h, hu, hlow, hhigh, he, hle, rfl⟩ := hx
  refine ⟨m, e, h, ?_, hlow, hhigh, he, hle, rfl⟩
  have hneg : (-x).toModel = Float.Model.pack (UnpackedFloat.neg x.toModel.unpack) := rfl
  rw [hneg, hu]
  exact unpack_pack _ hlow hhigh he hle h

/-- **A product is rounded once.** -/
theorem Value.mul (hx : Value x s p) (hy : Value y s' q) (hp : 1 ≤ p) (hq : 1 ≤ q) (hle : p * q ≤ 2 ^ 1000) :
    ∃ r, Value (x * y) (s * s') r ∧ Rounds r (p * q) := by
  obtain ⟨m, e, h, hxu, hlow, hhigh, -, -, rfl⟩ := hx
  obtain ⟨n, f, h', hyu, hlow', hhigh', -, -, rfl⟩ := hy
  have he := le_exponent (a := 0) hhigh hlow (by simpa using hp)
  have hf := le_exponent (a := 0) hhigh' hlow' (by simpa using hq)
  have hmul : (x * y).toModel = Float.Model.pack (UnpackedFloat.mul .binary64 x.toModel.unpack y.toModel.unpack) := rfl
  rw [hxu, hyu] at hmul
  have hsize : (m * 2 ^ e * (n * 2 ^ f) : ℚ) = (m * n : ℕ) * 2 ^ (e + f) := by
    rw [zpow_add₀ (by norm_num)]
    push_cast
    ring
  refine value_of_round hmul ?_ hle
  rw [hsize]
  exact round_rounds (s * s') (hlow.trans (Nat.le_mul_of_pos_right m h')) (by omega) (describes_exact _)

/-- Numbers of 53 digits are divided with 53 more of them, which leaves a quotient with no fewer. -/
theorem divCore_full {m n : Nat} {e f : Int} (hlow : 2 ^ 52 ≤ m) (hhigh : m < 2 ^ 53) (hlow' : 2 ^ 52 ≤ n)
    (hhigh' : n < 2 ^ 53) (he : -1000 ≤ e - f) :
    divCore .binary64 m e n f = (m * 2 ^ 53 / n, e - f - 53, accuracyOfFraction (m * 2 ^ 53 % n) n) := by
  have hmin : Format.binary64.minExponent = -1074 := by decide
  have hbits : Format.binary64.mantissaBits = 53 := by decide
  have hm : m.log2 = 52 := (Nat.log2_eq_iff (by omega)).mpr ⟨hlow, hhigh⟩
  have hn : n.log2 = 52 := (Nat.log2_eq_iff (by omega)).mpr ⟨hlow', hhigh'⟩
  have htarget : min (e - f) (Format.binary64.targetExponent (totalExponent m e - totalExponent n f)) = e - f - 53 := by
    rw [Format.targetExponent, totalExponent, totalExponent, hmin, hbits, hm, hn]
    omega
  have hshift : (e - f - (e - f - 53)).toNat = 53 := by omega
  simp only [divCore, htarget, hshift, Nat.shiftLeft_eq]

/-- **A quotient is rounded once.** -/
theorem Value.div (hx : Value x s p) (hy : Value y s' q) (hp : 1 ≤ p) (hq : 1 ≤ q) (hp' : p ≤ 2 ^ 500)
    (hq' : q ≤ 2 ^ 500) : ∃ r, Value (x / y) (s / s') r ∧ Rounds r (p / q) := by
  obtain ⟨m, e, h, hxu, hlow, hhigh, -, -, rfl⟩ := hx
  obtain ⟨n, f, h', hyu, hlow', hhigh', -, -, rfl⟩ := hy
  have he := le_exponent (a := 0) hhigh hlow (by simpa using hp)
  have hf := exponent_le (a := 500) hhigh' hlow' (by exact_mod_cast hq')
  have hdiv : (x / y).toModel = Float.Model.pack (UnpackedFloat.div .binary64 x.toModel.unpack y.toModel.unpack) := rfl
  rw [hxu, hyu] at hdiv
  have hlarge : 2 ^ 52 ≤ m * 2 ^ 53 / n := by
    rw [Nat.le_div_iff_mul_le h']
    exact Nat.mul_le_mul hlow hhigh'.le
  have hn : (n : ℚ) ≠ 0 := by exact_mod_cast h'.ne'
  have hsize : (m * 2 ^ e / (n * 2 ^ f) : ℚ) = ((m * 2 ^ 53 : ℕ) / n : ℚ) * 2 ^ (e - f - 53) := by
    rw [zpow_sub₀ (by norm_num), zpow_sub₀ (by norm_num)]
    push_cast
    field_simp
  refine value_of_round hdiv ?_ ?_
  · rw [hsize]
    simp only [UnpackedFloat.div, divCore_full hlow hhigh hlow' hhigh' (by omega : -1000 ≤ e - f)]
    exact round_rounds (s / s') hlarge (by omega) (describes_quotient _ h')
  · exact (div_le_self (by positivity) hq).trans (hp'.trans (pow_le_pow_right₀ (by norm_num) (by norm_num)))

theorem toModel_ofNat {n : Nat} (hlt : n < 2 ^ 53) :
    (Float.ofNat n).toModel = Float.Model.pack (UnpackedFloat.ofNat .binary64 n) := by
  have hword : n.toUInt64.toNat = n := Nat.mod_eq_of_lt (hlt.trans (by decide))
  have hone : Float.ofNat n = n.toUInt64.toFloat * 1 := by
    show Float.ofScientific n false 0 = _
    rw [Float.ofScientific, dif_pos ⟨hlt, by decide⟩]
    rfl
  rw [hone, mul_one]
  show Float.Model.pack (UnpackedFloat.ofNat .binary64 n.toUInt64.toNat) = _
  rw [hword]

/-- A natural number is given all 53 digits. -/
theorem ofNat_full {n k : Nat} (hpos : 0 < n) (hk : 52 = n.log2 + k) (hlow : 2 ^ 52 ≤ n * 2 ^ k)
    (hhigh : n * 2 ^ k < 2 ^ 53) : UnpackedFloat.ofNat .binary64 n = .finite .positive (n * 2 ^ k) (-k) (by omega) := by
  have hmin : Format.binary64.minExponent = -1074 := by decide
  have hbits : Format.binary64.mantissaBits = 53 := by decide
  have hcompare : compare (n : Int) 0 = .gt := compare_gt_iff_gt.mpr (by omega)
  have hshift : (-Format.binary64.targetExponent (totalExponent n 0)).toNat = k := by
    rw [Format.targetExponent, totalExponent, hmin, hbits]
    omega
  have hstored := round_stored (e := -k) (by omega) (Or.inl ⟨hlow, hhigh, by omega⟩) .positive 0
  rw [Nat.pow_zero, Nat.mul_one, Nat.cast_zero, Int.sub_zero] at hstored
  unfold UnpackedFloat.ofNat UnpackedFloat.ofInt UnpackedFloat.normalize UnpackedFloat.round decreaseExponent
  simp only [hcompare, Int.toNat_natCast, Int.zero_sub, hshift, Nat.shiftLeft_eq]
  exact hstored

/-- **Natural numbers of 53 digits are doubles.** -/
theorem value_ofNat {n : Nat} (hpos : 0 < n) (hlt : n < 2 ^ 53) : Value (Float.ofNat n) .positive n := by
  have hlog : n.log2 < 53 := (Nat.log2_lt hpos.ne').mpr hlt
  obtain ⟨k, hk⟩ := Nat.exists_eq_add_of_le (Nat.le_of_lt_succ hlog)
  have hlow : 2 ^ 52 ≤ n * 2 ^ k := by
    rw [hk, Nat.pow_add]
    exact Nat.mul_le_mul_right _ (Nat.log2_self_le hpos.ne')
  have hhigh : n * 2 ^ k < 2 ^ 53 := by
    have hsplit : 2 ^ 53 = 2 ^ (n.log2 + 1) * 2 ^ k := by
      rw [← Nat.pow_add]
      congr 1
      omega
    rw [hsplit]
    exact Nat.mul_lt_mul_of_pos_right Nat.lt_log2_self (Nat.two_pow_pos k)
  refine ⟨n * 2 ^ k, -k, by omega, ?_, hlow, hhigh, by omega, by omega, ?_⟩
  · rw [toModel_ofNat hlt, ofNat_full hpos hk hlow hhigh]
    exact unpack_pack _ hlow hhigh (by omega) (by omega) _
  · push_cast
    rw [mul_assoc, zpow_neg, zpow_natCast, mul_inv_cancel₀ (by positivity), Rat.mul_one]

end Double
end Arbor
