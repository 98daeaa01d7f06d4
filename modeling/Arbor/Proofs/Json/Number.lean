import Arbor.Json.Number
import Arbor.Proofs.Decimal.Fractions
import Arbor.Proofs.Double.Rounding

/-!
# The error of reading a number

Digits and a power of ten are read with one product or quotient (`Number.scale?`). Powers of ten are exact up to
`10 ^ 22`, and rounded once beyond (`Number.powerOfTen_value`). So what is read is off by a little more than two parts
in `2 ^ 53` at most, and with small powers it is the nearest double (`Number.scale?_value`).
-/

namespace Arbor
namespace Json
namespace Number

open Double Float.Model

/-! ## Powers of ten -/

/-- An unpacked power of ten, as good as 53 digits allow. -/
def isPowerOfTen (n : Nat) : UnpackedFloat → Bool
  | .finite .positive m e _ =>
    let exact := 10 ^ n * 2 ^ 52
    let stored := m * 2 ^ (e + 52).toNat
    2 ^ 52 ≤ m ∧ m < 2 ^ 53 ∧ -52 ≤ e ∧ e ≤ 147 ∧ exact * 2 ^ 53 ≤ stored * 2 ^ 53 + exact ∧
      stored * 2 ^ 53 ≤ exact * 2 ^ 53 + exact ∧ (n ≤ 22 → stored = exact)
  | _ => false

theorem isPowerOfTen_powerOfTen : ∀ n < 47, isPowerOfTen n (powerOfTen n).toModel.unpack = true := by
  decide +kernel

/-- **Powers of ten are exact or rounded once.** -/
theorem powerOfTen_value {n : Nat} (hn : n < 47) :
    ∃ p, Value (powerOfTen n) .positive p ∧ 1 ≤ p ∧ p ≤ 2 ^ 200 ∧ |p - 10 ^ n| ≤ 10 ^ n / 2 ^ 53 ∧
      (n ≤ 22 → p = 10 ^ n) := by
  have hcheck := isPowerOfTen_powerOfTen n hn
  cases hu : (powerOfTen n).toModel.unpack with
  | notANumber => simp [hu, isPowerOfTen] at hcheck
  | infinity s => simp [hu, isPowerOfTen] at hcheck
  | zero s => simp [hu, isPowerOfTen] at hcheck
  | finite s m e h =>
    rw [hu] at hcheck
    cases s with
    | negative => simp [isPowerOfTen] at hcheck
    | positive =>
      simp only [isPowerOfTen, decide_eq_true_eq] at hcheck
      obtain ⟨hlow, hhigh, he, hle, hunder, hover, hexact⟩ := hcheck
      obtain ⟨k, hk⟩ := Int.eq_ofNat_of_zero_le (show 0 ≤ e + 52 by omega)
      rw [hk, Int.toNat_natCast] at hunder hover hexact
      have hvalue : ((m * 2 ^ k : ℕ) : ℚ) = m * 2 ^ e * 2 ^ 52 := by
        rw [mul_assoc, ← zpow_natCast 2 52, ← zpow_add₀ (by norm_num), Nat.cast_ofNat, hk]
        push_cast
        rw [zpow_natCast]
      obtain ⟨hbelow, habove⟩ := size_bounds (e := e) hlow hhigh
      refine ⟨m * 2 ^ e, ⟨m, e, h, hu, hlow, hhigh, by omega, by omega, rfl⟩, ?_, ?_, ?_, fun hsmall => ?_⟩
      · exact (one_le_zpow₀ (by norm_num) (by omega)).trans hbelow
      · exact habove.le.trans ((zpow_le_zpow_right₀ (by norm_num) (by omega)).trans_eq (zpow_natCast _ 200))
      · have hover' : ((m * 2 ^ k : ℕ) * 2 ^ 53 : ℚ) ≤ 10 ^ n * 2 ^ 52 * 2 ^ 53 + 10 ^ n * 2 ^ 52 := by
          exact_mod_cast hover
        have hunder' : (10 ^ n * 2 ^ 52 * 2 ^ 53 : ℚ) ≤ (m * 2 ^ k : ℕ) * 2 ^ 53 + 10 ^ n * 2 ^ 52 := by
          exact_mod_cast hunder
        rw [hvalue] at hover' hunder'
        rw [abs_le]
        constructor <;> linarith
      · have hstored : ((m * 2 ^ k : ℕ) : ℚ) = 10 ^ n * 2 ^ 52 := by exact_mod_cast hexact hsmall
        exact mul_right_cancel₀ (by norm_num) (hvalue.symm.trans hstored)

/-! ## Scaling -/

variable {r p ten s : ℚ}

theorem close_mul (hs : 0 < s) (hten : 0 < ten) (hp : |p - ten| ≤ ten / 2 ^ 53) (hr : |r - s * p| ≤ s * p / 2 ^ 53) :
    Close r (s * ten) := by
  have hscaled : |s * p - s * ten| ≤ s * ten / 2 ^ 53 := by
    rw [← mul_sub, abs_mul, abs_of_pos hs, mul_div_assoc]
    exact mul_le_mul_of_nonneg_left hp hs.le
  have hpos : 0 < s * ten := mul_pos hs hten
  rw [abs_le] at hscaled hr
  rw [Close, abs_le]
  constructor <;> linarith [hscaled.1, hscaled.2, hr.1, hr.2]

theorem close_div (hs : 0 < s) (hten : 0 < ten) (hp : |p - ten| ≤ ten / 2 ^ 53) (hr : |r - s / p| ≤ s / p / 2 ^ 53) :
    Close r (s / ten) := by
  have hp' := abs_le.mp hp
  have hppos : 0 < p := by linarith [hp'.1]
  have hscaled : |s / p - s / ten| ≤ s / p / 2 ^ 53 := by
    have hsplit : s / p - s / ten = s / p * ((ten - p) / ten) := by field_simp
    rw [hsplit, abs_mul, abs_of_pos (div_pos hs hppos), div_eq_mul_inv (s / p), abs_div, abs_of_pos hten, abs_sub_comm]
    refine mul_le_mul_of_nonneg_left ?_ (div_pos hs hppos).le
    rw [div_le_iff₀ hten, mul_comm, ← div_eq_mul_inv]
    exact hp
  have hquotient : s / p ≤ 9 / 8 * (s / ten) := by
    have hten' : ten ≤ 9 / 8 * p := by linarith [hp'.1]
    rw [← mul_div_assoc, div_le_div_iff₀ hppos hten, mul_comm (9 / 8 : ℚ), mul_assoc]
    exact mul_le_mul_of_nonneg_left hten' hs.le
  rw [abs_le] at hscaled hr
  rw [Close, abs_le]
  constructor <;> linarith [hscaled.1, hscaled.2, hr.1, hr.2]

theorem isFinite_of_value {x : Float} {sign : UnpackedFloat.Sign} {q : ℚ} (h : Value x sign q) : x.isFinite = true := by
  obtain ⟨m, e, hm, hu, -⟩ := h
  show x.toModel.unpack.isFinite = true
  rw [hu]
  rfl

/-- **Digits and a power of ten are read with a small error;** with a small power, they are rounded once. -/
theorem scale?_value {n : Nat} {t : Int} (hpos : 0 < n) (hlt : n < 2 ^ 53) (hlow : -46 ≤ t) (hhigh : t ≤ 46) :
    ∃ f r, scale? (Float.ofNat n) t 4 = some f ∧ Value f .positive r ∧ Close r (n * 10 ^ t) ∧
      (-22 ≤ t → t ≤ 22 → Rounds r (n * 10 ^ t)) := by
  have hvalue := value_ofNat hpos hlt
  have hn : (1 : ℚ) ≤ n := by exact_mod_cast hpos
  have hn' : (n : ℚ) ≤ 2 ^ 53 := by exact_mod_cast hlt.le
  rcases lt_or_ge t 0 with ht | ht
  case inr =>
    obtain ⟨k, rfl⟩ := Int.eq_ofNat_of_zero_le ht
    obtain ⟨p, hp, hone, hle, hnear, hexact⟩ := powerOfTen_value (n := k) (by omega)
    obtain ⟨r, hr, hrounds⟩ := hvalue.mul hp hn hone (by
      calc (n : ℚ) * p ≤ 2 ^ 53 * 2 ^ 200 := mul_le_mul hn' hle (by linarith) (by positivity)
        _ = 2 ^ 253 := (pow_add _ _ _).symm
        _ ≤ 2 ^ 1000 := pow_le_pow_right₀ (by norm_num) (by norm_num))
    refine ⟨_, r, ?_, hr, ?_, fun _ hsmall => ?_⟩
    · rw [scale?, if_neg (by omega), if_pos ht]
      simp only [Int.toNat_natCast, isFinite_of_value hr, if_true]
    · rw [zpow_natCast]
      exact close_mul (by linarith) (by positivity) hnear hrounds.near
    · rw [zpow_natCast, ← hexact (by omega)]
      exact hrounds
  case inl =>
    obtain ⟨k, rfl⟩ := Int.exists_eq_neg_ofNat ht.le
    obtain ⟨p, hp, hone, hle, hnear, hexact⟩ := powerOfTen_value (n := k) (by omega)
    obtain ⟨r, hr, hrounds⟩ := hvalue.div hp hn hone (hn'.trans (pow_le_pow_right₀ (by norm_num) (by norm_num)))
      (hle.trans (pow_le_pow_right₀ (by norm_num) (by norm_num)))
    refine ⟨_, r, ?_, hr, ?_, fun hsmall _ => ?_⟩
    · rw [scale?, if_neg (by omega), if_neg (by omega), if_pos (by omega), neg_neg, Int.toNat_natCast]
    · rw [zpow_neg, zpow_natCast, ← div_eq_mul_inv]
      exact close_div (by linarith) (by positivity) hnear hrounds.near
    · rw [zpow_neg, zpow_natCast, ← div_eq_mul_inv, ← hexact (by omega)]
      exact hrounds

end Number
end Json
end Arbor
