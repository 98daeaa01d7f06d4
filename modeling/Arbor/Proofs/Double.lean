import Mathlib

/-!
# Doubles, by mantissa and exponent

A finite double is stored as a mantissa and an exponent that fit each other (`Stored`), and is read back from them
(`Double.pack_unpack`). A product whose exact value is such a pair, written with more digits, is rounded to that pair
(`Double.round_stored`); so one is neutral for every double, infinities and the number that is none included
(`Double.mul_one`).
-/

namespace Arbor
namespace Double

open Float.Model Float.Model.UnpackedFloat

/-! ## Stored pairs -/

/-- The mantissa has all of its digits, or the exponent is the least one. -/
def Stored (m : Nat) (e : Int) : Prop :=
  (2 ^ 52 ≤ m ∧ m < 2 ^ 53 ∧ -1074 ≤ e) ∨ (m < 2 ^ 52 ∧ e = -1074)

theorem log2_mul_two_pow {m : Nat} (hm : m ≠ 0) : ∀ k, (m * 2 ^ k).log2 = m.log2 + k
  | 0 => by simp
  | k + 1 => by
    have hk : m * 2 ^ k ≠ 0 := Nat.mul_ne_zero hm (Nat.two_pow_pos k).ne'
    rw [Nat.pow_succ, ← Nat.mul_assoc, Nat.mul_comm _ 2, Nat.log2_two_mul hk, log2_mul_two_pow hm k, Nat.add_assoc]

/-- A stored pair has the exponent that rounding aims at, with however many digits it is written. -/
theorem targetExponent_stored {m : Nat} {e : Int} (hm : 0 < m) (h : Stored m e) (k : Nat) :
    Format.binary64.targetExponent (totalExponent (m * 2 ^ k) (e - k)) = e := by
  have hlog := log2_mul_two_pow hm.ne' k
  have hmin : Format.binary64.minExponent = -1074 := by decide
  have hbits : Format.binary64.mantissaBits = 53 := by decide
  unfold Format.targetExponent totalExponent
  rw [hlog, hmin, hbits]
  rcases h with ⟨hlo, hhi, he⟩ | ⟨hhi, rfl⟩
  · have : m.log2 = 52 := (Nat.log2_eq_iff hm.ne').mpr ⟨hlo, hhi⟩
    omega
  · have : m.log2 < 52 := (Nat.log2_lt hm.ne').mpr hhi
    omega

/-! ## Rounding -/

/-- Digits that are all zero are dropped without a trace. -/
theorem repeat_shiftRightOne (m : Nat) : ∀ k,
    Nat.repeat ExtendedMantissa.shiftRightOne k ⟨m * 2 ^ k, false, false⟩ = ⟨m, false, false⟩
  | 0 => by simp [Nat.repeat]
  | k + 1 => by
    have hsplit : m * 2 ^ (k + 1) = m * 2 * 2 ^ k := by ring
    rw [Nat.repeat, hsplit, repeat_shiftRightOne (m * 2) k]
    simp [ExtendedMantissa.shiftRightOne]

theorem shiftToTargetExponent_stored {m : Nat} {e : Int} (hm : 0 < m) (h : Stored m e) (k : Nat) :
    shiftToTargetExponent .binary64 (m * 2 ^ k) (e - k) .exact = (⟨m, false, false⟩, e) := by
  have hshift : (e - (e - (k : Int))).toNat = k := by omega
  unfold shiftToTargetExponent shiftToExponent
  simp only [targetExponent_stored hm h k, hshift]
  exact Prod.ext (repeat_shiftRightOne m k) (by simp)

/-- **A stored pair, written with more digits, is rounded to itself.** -/
theorem round_stored {m : Nat} {e : Int} (hm : 0 < m) (h : Stored m e) (s : Sign) (k : Nat) :
    roundWithAccuracy .binary64 s (m * 2 ^ k) (e - k) .exact = .finite s m e hm := by
  have h0 := shiftToTargetExponent_stored hm h 0
  rw [Nat.pow_zero, Nat.mul_one, Nat.cast_zero, Int.sub_zero] at h0
  unfold roundWithAccuracy
  rw [shiftToTargetExponent_stored hm h k]
  simp only [ExtendedMantissa.roundedMantissa, ExtendedMantissa.accuracy, Accuracy.roundToNearestEven, h0]
  rw [dif_neg hm.ne']

/-! ## Reading back -/

theorem toBitVec_ofBitVec (v : BitVec 1) : (Sign.ofBitVec v).toBitVec = v := by
  revert v
  decide

section Format

variable {spec : Format}

/-- The three fields of a word, put together again. -/
theorem packComponents_fields (b : BitVec spec.numBits) {e : BitVec spec.exponentBits}
    {m : BitVec spec.mantissaBitsWithoutImplicit} (he : unpackExponent b = e) (hm : unpackMantissa b = m) :
    packComponents spec (Sign.ofBitVec (unpackSign b)) e m = b := by
  subst he hm
  have := spec.hm
  have := spec.he
  apply BitVec.eq_of_getLsbD_eq
  intro i hi
  rw [packComponents, toBitVec_ofBitVec, BitVec.getLsbD_append, BitVec.getLsbD_append]
  simp only [unpackSign, unpackExponent, unpackMantissa, BitVec.getLsbD_cast, BitVec.getLsbD_extractLsb]
  grind

theorem toNat_implicit {n : Nat} (m : BitVec n) : (1#1 ++ m).toNat = 2 ^ n + m.toNat := by
  rw [BitVec.toNat_append, ← Nat.shiftLeft_add_eq_or_of_lt m.isLt]
  simp [Nat.shiftLeft_eq]

/-- A normal pair is packed into its sign, its biased exponent and its digits after the first. -/
theorem pack_normal {s : Sign} {e : BitVec spec.exponentBits} {m : BitVec spec.mantissaBitsWithoutImplicit}
    (he : e ≠ -1#_) (h : 0 < 2 ^ spec.mantissaBitsWithoutImplicit + m.toNat) :
    pack spec (.finite s (2 ^ spec.mantissaBitsWithoutImplicit + m.toNat)
      (e.toNat - (spec.exponentBias + spec.mantissaBitsWithoutImplicit)) h) = packComponents spec s e m := by
  have hm := m.isLt
  have hlog : (2 ^ spec.mantissaBitsWithoutImplicit + m.toNat).log2 = spec.mantissaBitsWithoutImplicit :=
    (Nat.log2_eq_iff h.ne').mpr ⟨by omega, by omega⟩
  have hbias : ((e.toNat : Int) - (spec.exponentBias + spec.mantissaBitsWithoutImplicit) + spec.exponentBias +
      spec.mantissaBitsWithoutImplicit).toNat = e.toNat := by omega
  have hlt : ¬2 ^ spec.exponentBits ≤ e.toNat + 1 := by
    have hne := BitVec.toNat_ne.mp he
    have := e.isLt
    rw [BitVec.neg_one_eq_allOnes, BitVec.toNat_allOnes] at hne
    omega
  unfold UnpackedFloat.pack
  simp only [hlog, hbias]
  rw [if_neg hlt, if_pos (by rw [Format.mantissaBits, Nat.add_comm])]
  congr 1
  · exact BitVec.eq_of_toNat_eq (by simp)
  · exact BitVec.eq_of_toNat_eq (by simp [Nat.mod_eq_of_lt hm])

/-- A pair with missing digits is packed into its sign and its digits. -/
theorem pack_subnormal (hbits : 2 ≤ spec.exponentBits) {s : Sign} {e : Int}
    {m : BitVec spec.mantissaBitsWithoutImplicit}
    (he : e = 1 - (spec.exponentBias + spec.mantissaBitsWithoutImplicit)) (h : 0 < m.toNat) :
    pack spec (.finite s m.toNat e h) = packComponents spec s 0#_ m := by
  have hlog : m.toNat.log2 < spec.mantissaBitsWithoutImplicit := (Nat.log2_lt h.ne').mpr m.isLt
  have hbias : (e + spec.exponentBias + spec.mantissaBitsWithoutImplicit).toNat = 1 := by omega
  have hlt : 2 ^ 2 ≤ 2 ^ spec.exponentBits := Nat.pow_le_pow_right (by decide) hbits
  unfold UnpackedFloat.pack
  simp only [hbias]
  rw [if_neg (by omega), if_neg (by rw [Format.mantissaBits]; omega)]
  congr 1
  exact BitVec.eq_of_toNat_eq (by simp)

/-- **A word is read back from what it stands for.** -/
theorem pack_unpack (hbits : 2 ≤ spec.exponentBits) (b : BitVec spec.numBits) (h : spec.Valid b) :
    pack spec (unpack spec b) = b := by
  unfold UnpackedFloat.unpack
  simp only
  split
  case isTrue he =>
    split
    case isTrue hm => exact packComponents_fields b he hm
    case isFalse hm => exact (h.eq_packedNaN he hm).symm
  case isFalse hfinite =>
    split
    case isTrue he =>
      split
      case isTrue hm => exact packComponents_fields b he hm
      case isFalse hm =>
        have hexponent : (unpackExponent b).toNat = 0 := by rw [he]; simp
        exact (pack_subnormal hbits (by omega) _).trans (packComponents_fields b he rfl)
    case isFalse =>
      simp only [toNat_implicit]
      exact (pack_normal hfinite _).trans (packComponents_fields b rfl rfl)

/-- A word stands for a finite number unless its exponent is the greatest. -/
theorem isFinite_unpack (b : BitVec spec.numBits) : (unpack spec b).isFinite = true ↔ unpackExponent b ≠ -1#_ := by
  unfold UnpackedFloat.unpack
  simp only
  split
  case isTrue h => split <;> simp [UnpackedFloat.isFinite, h]
  case isFalse h =>
    split
    · split <;> simp [UnpackedFloat.isFinite, h]
    · simp [UnpackedFloat.isFinite, h]

end Format

variable (b : BitVec Format.binary64.numBits)

/-- What a word stands for, by its fields. -/
theorem unpack_cases :
    (unpackExponent b = -1#11 ∧ unpackMantissa b = 0#52 ∧
      unpack .binary64 b = .infinity (.ofBitVec (unpackSign b))) ∨
    (unpackExponent b = -1#11 ∧ unpackMantissa b ≠ 0#52 ∧ unpack .binary64 b = .notANumber) ∨
    (unpackExponent b = 0#11 ∧ unpackMantissa b = 0#52 ∧ unpack .binary64 b = .zero (.ofBitVec (unpackSign b))) ∨
    (unpackExponent b = 0#11 ∧ ∃ h, unpack .binary64 b =
      .finite (.ofBitVec (unpackSign b)) (unpackMantissa b).toNat (-1074) h) ∨
    (unpackExponent b ≠ -1#11 ∧ unpackExponent b ≠ 0#11 ∧ ∃ h, unpack .binary64 b =
      .finite (.ofBitVec (unpackSign b)) (2 ^ 52 + (unpackMantissa b).toNat)
        ((unpackExponent b).toNat - 1075) h) := by
  by_cases h1 : unpackExponent b = -1#11
  · by_cases h2 : unpackMantissa b = 0#52
    · exact Or.inl ⟨h1, h2, by simp [UnpackedFloat.unpack, h1, h2]⟩
    · exact Or.inr (Or.inl ⟨h1, h2, by simp [UnpackedFloat.unpack, h1, h2]⟩)
  · by_cases h0 : unpackExponent b = 0#11
    · by_cases h2 : unpackMantissa b = 0#52
      · exact Or.inr (Or.inr (Or.inl ⟨h0, h2, by simp [UnpackedFloat.unpack, h0, h2]⟩))
      · refine Or.inr (Or.inr (Or.inr (Or.inl ⟨h0, ?_, ?_⟩)))
        · simpa [BitVec.toNat_pos, BitVec.pos_iff_ne_zero] using h2
        · simp [UnpackedFloat.unpack, h0, h2, Format.exponentBias]
    · refine Or.inr (Or.inr (Or.inr (Or.inr ⟨h1, h0, by positivity, ?_⟩)))
      rw [UnpackedFloat.unpack, if_neg h1, if_neg h0]
      simp only [toNat_implicit, Format.exponentBias]
      rfl

/-- What a word stands for is a stored pair, if it is a pair at all. -/
theorem stored_of_unpack {s : Sign} {m : Nat} {e : Int} {hm : 0 < m}
    (h : unpack .binary64 b = .finite s m e hm) : Stored m e := by
  rcases unpack_cases b with ⟨-, -, hu⟩ | ⟨-, -, hu⟩ | ⟨-, -, hu⟩ | ⟨-, hpos, hu⟩ | ⟨-, h0, hpos, hu⟩
  · simp [h] at hu
  · simp [h] at hu
  · simp [h] at hu
  · rw [h] at hu
    cases hu
    exact Or.inr ⟨(unpackMantissa b).isLt, rfl⟩
  · rw [h] at hu
    cases hu
    have hlt : (unpackMantissa b).toNat < 2 ^ 52 := (unpackMantissa b).isLt
    have hne : (unpackExponent b).toNat ≠ 0 := BitVec.toNat_ne.mp h0
    exact Or.inl ⟨by omega, by omega, by omega⟩

/-! ## Products with one -/

theorem positive_mul (s : Sign) : s * .positive = s := by
  cases s <;> rfl

/-- One, in all of its digits. -/
theorem unpack_one : (1 : Float).toModel.unpack = .finite .positive (2 ^ 52) (-52) (by decide) := rfl

/-- What a double stands for is not changed by one. -/
theorem unpack_mul_one (x : Float.Model) :
    UnpackedFloat.mul .binary64 x.unpack (.finite .positive (2 ^ 52) (-52) (by decide)) = x.unpack := by
  cases hx : x.unpack with
  | notANumber => rfl
  | infinity s => exact congrArg UnpackedFloat.infinity (positive_mul s)
  | zero s => exact congrArg UnpackedFloat.zero (positive_mul s)
  | finite s m e hm =>
    rw [UnpackedFloat.mul, positive_mul]
    exact round_stored hm (stored_of_unpack x.toBits.toBitVec hx) s 52

theorem model_pack_unpack (x : Float.Model) : Float.Model.pack x.unpack = x := by
  obtain ⟨bits, valid⟩ := x
  have hbits := @pack_unpack .binary64 (by decide) bits.toBitVec valid
  simp only [Float.Model.pack, Float.Model.unpack, hbits]

/-- **One is neutral for every double.** -/
theorem mul_one (x : Float) : x * 1 = x := by
  have hmul : x.toModel * (1 : Float).toModel = x.toModel := by
    have h := congrArg Float.Model.pack (unpack_mul_one x.toModel)
    rw [← unpack_one, model_pack_unpack] at h
    exact h
  exact congrArg Float.ofModel hmul

end Double
end Arbor
