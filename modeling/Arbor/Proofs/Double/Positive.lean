import Arbor.Proofs.Double
import Arbor.Proofs.Double.Order

/-!
# Positive doubles

A double is above zero if it stands for a positive number, infinity among them (`Double.zero_lt_iff`). Rounding leaves a
positive mantissa that does not reach below the least exponent positive (`Double.round_positive`), and no sum of two
doubles reaches there; so sums of positive doubles are positive, however many terms they have (`Double.sum_pos`).
-/

namespace Arbor
namespace Double

open Float.Model Float.Model.UnpackedFloat

/-- A number above zero, or positive infinity. -/
def Positive : UnpackedFloat → Prop
  | .infinity .positive => True
  | .finite .positive _ _ _ => True
  | _ => False

theorem Positive.cases {u : UnpackedFloat} (h : Positive u) :
    u = .infinity .positive ∨ ∃ m e hm, u = .finite .positive m e hm := by
  cases u with
  | notANumber => cases h
  | zero s => cases h
  | infinity s =>
    cases s with
    | negative => cases h
    | positive => exact Or.inl rfl
  | finite s m e hm =>
    cases s with
    | negative => cases h
    | positive => exact Or.inr ⟨m, e, hm, rfl⟩

/-! ## Comparisons with zero -/

theorem unpack_zero : (0 : Float).toModel.unpack = .zero .positive := rfl

theorem zero_lt_iff {x : Float} : 0 < x ↔ Positive x.toModel.unpack := by
  rw [lt_iff, unpack_zero]
  cases x.toModel.unpack with
  | notANumber => simp [Positive, UnpackedFloat.lt, UnpackedFloat.compare]
  | infinity s => cases s <;> simp [Positive, UnpackedFloat.lt, UnpackedFloat.compare]
  | zero s => simp [Positive, UnpackedFloat.lt, UnpackedFloat.compare]
  | finite s m e hm => cases s <;> simp [Positive, UnpackedFloat.lt, UnpackedFloat.compare]

/-- What is above zero is not at zero or below. -/
theorem not_le_zero {x : Float} (h : 0 < x) : ¬x ≤ 0 := by
  rw [zero_lt_iff] at h
  rw [le_iff, unpack_zero]
  cases hx : x.toModel.unpack with
  | notANumber => simp [hx, Positive] at h
  | infinity s => cases s <;> simp [hx, Positive, UnpackedFloat.le, UnpackedFloat.compare] at h ⊢
  | zero s => simp [hx, Positive] at h
  | finite s m e hm => cases s <;> simp [hx, Positive, UnpackedFloat.le, UnpackedFloat.compare] at h ⊢

/-! ## Rounding -/

theorem mantissa_shiftRight (m : ExtendedMantissa) : ∀ k, (Nat.repeat ExtendedMantissa.shiftRightOne k m).mantissa =
    m.mantissa / 2 ^ k
  | 0 => by simp [Nat.repeat]
  | k + 1 => by
    rw [Nat.repeat, ExtendedMantissa.shiftRightOne, mantissa_shiftRight m k, Nat.div_div_eq_div_mul, Nat.pow_succ]

theorem le_roundedMantissa (m : ExtendedMantissa) : m.mantissa ≤ m.roundedMantissa := by
  obtain ⟨m, r, s⟩ := m
  cases r <;> cases s <;> simp [ExtendedMantissa.roundedMantissa, ExtendedMantissa.accuracy,
    Accuracy.roundToNearestEven]

/-- Bringing a positive mantissa to 53 digits, or to the least exponent, leaves something of it. -/
theorem shift_positive {m : Nat} {e : Int} (hm : 0 < m) (he : -1074 ≤ e) : ∃ em e',
    shiftToTargetExponent .binary64 m e .exact = (em, e') ∧ 0 < em.mantissa ∧ em.mantissa < 2 ^ 53 ∧ -1074 ≤ e' := by
  have hmin : Format.binary64.minExponent = -1074 := by decide
  have hbits : Format.binary64.mantissaBits = 53 := by decide
  obtain ⟨k, hk⟩ : ∃ k, (Format.binary64.targetExponent (totalExponent m e) - e).toNat = k := ⟨_, rfl⟩
  have hdropped : k = m.log2 - 52 := by
    rw [← hk, Format.targetExponent, totalExponent, hmin, hbits]
    omega
  have hlow := Nat.log2_self_le hm.ne'
  have hhigh := Nat.lt_log2_self (n := m)
  refine ⟨Nat.repeat ExtendedMantissa.shiftRightOne k ⟨m, false, false⟩, e + k, ?_, ?_⟩
  · unfold shiftToTargetExponent shiftToExponent
    simp only [hk]
    rfl
  · rw [mantissa_shiftRight]
    refine ⟨?_, ?_, by omega⟩
    · have : 2 ^ k ≤ 2 ^ m.log2 := Nat.pow_le_pow_right (by omega) (by omega)
      exact Nat.div_pos (this.trans hlow) (Nat.two_pow_pos k)
    · have : 2 ^ (m.log2 + 1) ≤ 2 ^ (53 + k) := Nat.pow_le_pow_right (by omega) (by omega)
      rw [Nat.div_lt_iff_lt_mul (Nat.two_pow_pos k), ← Nat.pow_add]
      exact hhigh.trans_le this

/-- **A positive mantissa at no less than the least exponent is rounded to a positive number.** -/
theorem round_positive {m : Nat} {e : Int} (hm : 0 < m) (he : -1074 ≤ e) : ∃ m' e' h,
    UnpackedFloat.round .binary64 .positive m e = .finite .positive m' e' h ∧ m' < 2 ^ 53 ∧ -1074 ≤ e' := by
  have hmin : Format.binary64.minExponent = -1074 := by decide
  unfold UnpackedFloat.round decreaseExponent
  simp only
  obtain ⟨k, hk⟩ : ∃ k, (e - Format.binary64.targetExponent (totalExponent m e)).toNat = k := ⟨_, rfl⟩
  have hexponent : -1074 ≤ e - (k : Int) := by
    rw [← hk, Format.targetExponent, hmin]
    omega
  have hmantissa : 0 < m <<< k := by
    rw [Nat.shiftLeft_eq]
    exact Nat.mul_pos hm (Nat.two_pow_pos k)
  rw [hk]
  obtain ⟨em₁, e₁, hfirst, hpos₁, -, he₁⟩ := shift_positive hmantissa hexponent
  obtain ⟨em₂, e₂, hsecond, hpos₂, hlt₂, he₂⟩ := shift_positive (hpos₁.trans_le (le_roundedMantissa em₁)) he₁
  refine ⟨em₂.mantissa, e₂, hpos₂, ?_, hlt₂, he₂⟩
  unfold roundWithAccuracy
  simp only [hfirst, hsecond, dif_neg hpos₂.ne']

/-! ## Packing -/

theorem unpackSign_packComponents (s : Sign) (e : BitVec 11) (m : BitVec 52) :
    unpackSign (packComponents .binary64 s e m) = s.toBitVec := by
  apply BitVec.eq_of_getLsbD_eq
  intro i hi
  obtain rfl : i = 0 := by omega
  simp only [unpackSign, packComponents, BitVec.getLsbD_cast, BitVec.getLsbD_extractLsb, BitVec.getLsbD_append]
  rfl

/-- Fields that are not all zero, nor those of the number that is none, stand for a positive number. -/
theorem positive_packComponents {e : BitVec 11} {m : BitVec 52} (hzero : e ≠ 0#11 ∨ m ≠ 0#52)
    (hnumber : e ≠ -1#11 ∨ m = 0#52) : Positive (unpack .binary64 (packComponents .binary64 .positive e m)) := by
  have hsign : Sign.ofBitVec (unpackSign (packComponents .binary64 .positive e m)) = .positive := by
    rw [unpackSign_packComponents]
    rfl
  rcases unpack_cases (packComponents .binary64 .positive e m) with
    ⟨-, -, hu⟩ | ⟨he, hm, -⟩ | ⟨he, hm, -⟩ | ⟨-, hpos, hu⟩ | ⟨-, -, hpos, hu⟩
  · rw [hu, hsign]
    trivial
  · rw [unpackExponent_packComponents] at he
    rw [unpackMantissa_packComponents] at hm
    exact absurd (hnumber.resolve_left (not_not.mpr he)) hm
  · rw [unpackExponent_packComponents] at he
    rw [unpackMantissa_packComponents] at hm
    exact absurd hm (hzero.resolve_left (not_not.mpr he))
  · rw [hu, hsign]
    trivial
  · rw [hu, hsign]
    trivial

/-- A rounded positive number is positive when it has been packed; if it is too large, it is infinity then. -/
theorem positive_pack {m : Nat} {e : Int} (hm : 0 < m) (hlt : m < 2 ^ 53) (he : -1074 ≤ e) :
    Positive (unpack .binary64 (pack .binary64 (.finite .positive m e hm))) := by
  have hbias : Format.binary64.exponentBias = 1023 := by decide
  have hbits : Format.binary64.mantissaBits = 53 := by decide
  obtain ⟨k, hk⟩ : ∃ k, (e + (Format.binary64.exponentBias : Nat) + (52 : Nat)).toNat = k := ⟨_, rfl⟩
  have hkpos : 0 < k := by
    rw [← hk, hbias]
    omega
  unfold UnpackedFloat.pack
  simp only [hk]
  by_cases hlarge : 2 ^ 11 ≤ k + 1
  · rw [if_pos hlarge]
    exact positive_packComponents (Or.inl (by decide)) (Or.inr rfl)
  · rw [if_neg hlarge]
    have hexponent : (BitVec.ofNat 11 k).toNat = k := by
      rw [BitVec.toNat_ofNat]
      exact Nat.mod_eq_of_lt (by omega)
    by_cases hnormal : m.log2 + 1 = Format.binary64.mantissaBits
    · rw [if_pos hnormal]
      refine positive_packComponents (Or.inl (BitVec.toNat_ne.mpr ?_)) (Or.inl (BitVec.toNat_ne.mpr ?_))
      · rw [hexponent]
        exact hkpos.ne'
      · rw [hexponent]
        show k ≠ 2047
        omega
    · rw [if_neg hnormal]
      have hlog := (Nat.log2_lt hm.ne').mpr hlt
      have hdigits : m < 2 ^ 52 := (Nat.log2_lt hm.ne').mp (by omega)
      refine positive_packComponents (Or.inr (BitVec.toNat_ne.mpr ?_)) (Or.inl (by decide))
      rw [BitVec.toNat_ofNat, Nat.mod_eq_of_lt hdigits]
      exact hm.ne'

/-! ## Sums -/

theorem exponent_unpack (x : Float) {s : Sign} {m : Nat} {e : Int} {h : 0 < m}
    (hx : x.toModel.unpack = .finite s m e h) : -1074 ≤ e := by
  rcases stored_of_unpack x.toModel.toBits.toBitVec hx with ⟨-, -, he⟩ | ⟨-, rfl⟩
  · exact he
  · exact le_refl _

theorem decreaseExponent_pos {m : Nat} (hm : 0 < m) (e e' : Int) : 0 < (decreaseExponent m e e').1 := by
  rw [decreaseExponent, Nat.shiftLeft_eq]
  exact Nat.mul_pos hm (Nat.two_pow_pos _)

theorem positive_infinity : Positive (unpack .binary64 (pack .binary64 (.infinity .positive))) :=
  positive_packComponents (Or.inl (by decide)) (Or.inr rfl)

/-- **The sum of two positive doubles is positive.** Brought to the smaller exponent of the two, which is not below the
least one, both mantissas are still positive. -/
theorem add_pos {x y : Float} (hx : 0 < x) (hy : 0 < y) : 0 < x + y := by
  rw [zero_lt_iff] at hx hy ⊢
  show Positive (unpack .binary64 (pack .binary64 (UnpackedFloat.add .binary64 x.toModel.unpack y.toModel.unpack)))
  rcases hx.cases with hxu | ⟨m, e, hm, hxu⟩
  · rcases hy.cases with hyu | ⟨n, f, hn, hyu⟩
    · rw [hxu, hyu]
      exact positive_infinity
    · rw [hxu, hyu]
      exact positive_infinity
  · rcases hy.cases with hyu | ⟨n, f, hn, hyu⟩
    · rw [hxu, hyu]
      exact positive_infinity
    · have he := exponent_unpack x hxu
      have hf := exponent_unpack y hyu
      have hmantissa := Nat.add_pos_left (decreaseExponent_pos hm e (min e f)) (decreaseExponent n f (min e f)).1
      obtain ⟨m', e', hm', hround, hlt, he'⟩ := round_positive hmantissa (show -1074 ≤ min e f by omega)
      have hsum : UnpackedFloat.add .binary64 x.toModel.unpack y.toModel.unpack = .finite .positive m' e' hm' := by
        rw [hxu, hyu, ← hround]
        have hgt : compare (((decreaseExponent m e (min e f)).1 : Int) + (decreaseExponent n f (min e f)).1) 0 = .gt :=
          compare_gt_iff_gt.mpr (by exact_mod_cast hmantissa)
        unfold UnpackedFloat.add UnpackedFloat.normalize
        simp only [Sign.apply, hgt]
        rfl
      rw [hsum]
      exact positive_pack hm' hlt he'

/-- Zero is neutral for a positive double. -/
theorem zero_add_of_pos {x : Float} (hx : 0 < x) : 0 + x = x := by
  have hmodel : (0 : Float).toModel + x.toModel = x.toModel := by
    rw [zero_lt_iff] at hx
    have hadd : UnpackedFloat.add .binary64 (0 : Float).toModel.unpack x.toModel.unpack = x.toModel.unpack := by
      rw [unpack_zero]
      rcases hx.cases with hxu | ⟨m, e, hm, hxu⟩
      · rw [hxu]
        rfl
      · rw [hxu]
        rfl
    have h := congrArg Float.Model.pack hadd
    rw [model_pack_unpack] at h
    exact h
  exact congrArg Float.ofModel hmodel

/-- **A sum of positive doubles is positive,** if it has a term. -/
theorem sum_pos {xs : List Float} (hne : xs ≠ []) (h : ∀ x ∈ xs, 0 < x) : 0 < Scalar.sum xs := by
  have hfold : ∀ (ys : List Float) (total : Float), 0 < total → (∀ y ∈ ys, 0 < y) → 0 < ys.foldl (· + ·) total := by
    intro ys
    induction ys with
    | nil => exact fun _ htotal _ => htotal
    | cons y ys ih =>
      intro total htotal hys
      obtain ⟨hy, hys⟩ := List.forall_mem_cons.mp hys
      exact ih _ (add_pos htotal hy) hys
  cases xs with
  | nil => exact absurd rfl hne
  | cons x xs =>
    obtain ⟨hx, hxs⟩ := List.forall_mem_cons.mp h
    have hfirst : 0 + x = x := zero_add_of_pos hx
    show 0 < xs.foldl (· + ·) (0 + x)
    rw [hfirst]
    exact hfold xs x hx hxs

end Double
end Arbor
