import Arbor.Proofs.Decimal.Nearest
import Arbor.Proofs.Double.Rounding
import Arbor.Rounding

/-!
# Doubles become singles

A double of full precision becomes the single to which its value rounds (`Double.Value.toSingle`). The magnitude of a
single, its word without the sign, counts binary digits: mantissa and exponent together (`Single.magnitude`). Rounding a
mantissa to 24 digits, or to the digits above the least exponent, gives the magnitude of a single nearby
(`Single.exists_near`), and a number rounds to one single only (`Binary.Near.unique`).
-/

namespace Arbor

open Float.Model Float.Model.UnpackedFloat

/-! ## Rounding -/

/-- A shifted number is off by one half at most, and by one half only if it is even. -/
theorem shiftRound_bounds (n k : Nat) :
    (2 * (n.shiftRound k * 2 ^ k) < 2 * n + 2 ^ k ∨ (n.shiftRound k % 2 = 0 ∧ 2 * (n.shiftRound k * 2 ^ k) = 2 * n + 2 ^ k)) ∧
      (2 * n < 2 * (n.shiftRound k * 2 ^ k) + 2 ^ k ∨
        (n.shiftRound k % 2 = 0 ∧ 2 * n = 2 * (n.shiftRound k * 2 ^ k) + 2 ^ k)) := by
  have hsplit : n / 2 ^ k * 2 ^ k + n % 2 ^ k = n := Nat.div_add_mod' n (2 ^ k)
  have hrest : n % 2 ^ k < 2 ^ k := Nat.mod_lt n (Nat.two_pow_pos k)
  have hnext : (n / 2 ^ k + 1) * 2 ^ k = n / 2 ^ k * 2 ^ k + 2 ^ k := Nat.succ_mul _ _
  simp only [Nat.shiftRound, Nat.one_shiftLeft]
  split
  case isTrue h =>
    rw [hnext]
    omega
  case isFalse h => omega

namespace Single

/-- The magnitude of the single `m * 2 ^ e`. -/
def magnitude (m : Nat) (e : Int) : Int := (e + 149) * 2 ^ 23 + m

/-- The whole number `r` is nearest to `t`; it is even if another one is as near. -/
structure Nearest (r : Nat) (t : ℚ) : Prop where
  above : r < t + 1 / 2 ∨ (r % 2 = 0 ∧ r = t + 1 / 2)
  below : t < r + 1 / 2 ∨ (r % 2 = 0 ∧ t = r + 1 / 2)

theorem nearest_shiftRound (n k : Nat) : Nearest (n.shiftRound k) (n / 2 ^ k) := by
  obtain ⟨hup, hdown⟩ := shiftRound_bounds n k
  generalize n.shiftRound k = r at *
  have hunit : (0 : ℚ) < 2 ^ k := by positivity
  have hscaled : (n : ℚ) = n / 2 ^ k * 2 ^ k := (div_mul_cancel₀ _ hunit.ne').symm
  generalize (n / 2 ^ k : ℚ) = t at *
  constructor
  · refine hup.imp (fun h => lt_of_mul_lt_mul_right ?_ hunit.le) (And.imp_right fun h => mul_right_cancel₀ hunit.ne' ?_)
    · have hcast : (2 * (r * 2 ^ k) : ℚ) < 2 * n + 2 ^ k := by exact_mod_cast h
      linarith
    · have hcast : (2 * (r * 2 ^ k) : ℚ) = 2 * n + 2 ^ k := by exact_mod_cast h
      linarith
  · refine hdown.imp (fun h => lt_of_mul_lt_mul_right ?_ hunit.le) (And.imp_right fun h => mul_right_cancel₀ hunit.ne' ?_)
    · have hcast : (2 * n : ℚ) < 2 * (r * 2 ^ k) + 2 ^ k := by exact_mod_cast h
      linarith
    · have hcast : (2 * n : ℚ) = 2 * (r * 2 ^ k) + 2 ^ k := by exact_mod_cast h
      linarith

theorem near_iff (m : Nat) (e : Int) (narrow : Bool) (t : ℚ) : Binary.Near m e narrow (t * 2 ^ e) ↔
    (4 * m - (if narrow then 1 else 2) < 4 * t ∨ (m % 2 = 0 ∧ 4 * m - (if narrow then 1 else 2) = 4 * t)) ∧
      (4 * t < 4 * m + 2 ∨ (m % 2 = 0 ∧ 4 * t = 4 * m + 2)) := by
  have hscale : (0 : ℚ) < 2 ^ (e - 2) := by positivity
  have hfour : t * 2 ^ e = 4 * t * 2 ^ (e - 2) := by
    rw [zpow_sub₀ (by norm_num)]
    norm_num
    ring
  simp only [Binary.Near, hfour, mul_lt_mul_iff_left₀ hscale, mul_left_inj' hscale.ne']

section Nearest

variable {r : Nat} {t : ℚ} (h : Nearest r t) (e : Int)
include h

theorem Nearest.near : Binary.Near r e false (t * 2 ^ e) := by
  simp only [near_iff, Bool.false_eq_true, if_false]
  exact ⟨h.above.imp (fun h => by linarith) (And.imp_right fun h => by linarith),
    h.below.imp (fun h => by linarith) (And.imp_right fun h => by linarith)⟩

/-- A lower neighbour half as far away does not matter to a number that is not below. -/
theorem Nearest.near_narrow (hle : r ≤ t) : Binary.Near r e true (t * 2 ^ e) := by
  simp only [near_iff, if_true]
  exact ⟨Or.inl (by linarith), h.below.imp (fun h => by linarith) (And.imp_right fun h => by linarith)⟩

end Nearest

/-- A carry out of the last digit. -/
theorem Nearest.near_carry {t : ℚ} (h : Nearest (2 ^ 24) t) (hlt : t < 2 ^ 24) (e : Int) :
    Binary.Near (2 ^ 23) (e + 1) true (t * 2 ^ e) := by
  have hhalf : t * 2 ^ e = t / 2 * 2 ^ (e + 1) := by
    rw [zpow_add_one₀ (by norm_num)]
    ring
  simp only [hhalf, near_iff, if_true]
  push_cast
  refine ⟨h.above.imp (fun h => ?_) fun ⟨_, h⟩ => ⟨trivial, ?_⟩, Or.inl (by linarith)⟩
  all_goals
    push_cast at h
    linarith

/-- **A mantissa of 53 digits rounds to a single nearby.** -/
theorem exists_near {m k : Nat} {e : Int} (hm : m < 2 ^ 53) (hk : 29 ≤ k)
    (he : e = -149 ∨ (-149 < e ∧ k = 29 ∧ 2 ^ 52 ≤ m)) : ∃ m' e' narrow, Binary.Stored 23 (-149) m' e' narrow ∧
      Binary.Near m' e' narrow (m * 2 ^ (e - k)) ∧ magnitude m' e' = magnitude (m.shiftRound k) e := by
  have hbound : -149 ≤ e := he.elim (fun h => h.ge) fun h => h.1.le
  have hnearest := nearest_shiftRound m k
  have hunit : (0 : ℚ) < 2 ^ k := by positivity
  have hscaled : (m : ℚ) = m / 2 ^ k * 2 ^ k := (div_mul_cancel₀ _ hunit.ne').symm
  generalize m.shiftRound k = r at *
  generalize (m / 2 ^ k : ℚ) = t at *
  have hvalue : (m * 2 ^ (e - k) : ℚ) = t * 2 ^ e := by
    rw [hscaled, mul_assoc, ← zpow_natCast, ← zpow_add₀ (by norm_num), add_sub_cancel]
  have hleast : -149 < e → (2 : ℚ) ^ 23 ≤ t := by
    intro hlt
    obtain ⟨-, rfl, hlow⟩ := he.resolve_left (by omega)
    have hcast : (2 ^ 52 : ℚ) ≤ m := by exact_mod_cast hlow
    linarith
  have hgreatest : t < 2 ^ 24 := by
    have hcast : (m : ℚ) < 2 ^ 53 := by exact_mod_cast hm
    have hpow : (2 : ℚ) ^ 29 ≤ 2 ^ k := pow_le_pow_right₀ (by norm_num) hk
    exact lt_of_mul_lt_mul_right (by linarith : t * 2 ^ k < 2 ^ 24 * 2 ^ k) hunit.le
  rw [hvalue]
  rcases Nat.lt_or_ge r (2 ^ 24) with hlt | hge
  · by_cases hnarrow : r = 2 ^ 23 ∧ -149 < e
    · obtain ⟨rfl, hfull⟩ := hnarrow
      refine ⟨2 ^ 23, e, true, ⟨hlt, hbound, fun _ => le_refl _, ⟨fun _ => ⟨rfl, hfull⟩, fun _ => rfl⟩⟩, ?_, rfl⟩
      exact hnearest.near_narrow e (by exact_mod_cast hleast hfull)
    · refine ⟨r, e, false, ⟨hlt, hbound, fun h => ?_, by simpa using hnarrow⟩, hnearest.near e, rfl⟩
      by_contra hsmall
      have hcast : (r : ℚ) + 1 ≤ 2 ^ 23 := by exact_mod_cast not_le.mp hsmall
      have := hleast h
      rcases hnearest.below with h | ⟨-, h⟩ <;> linarith
  · obtain rfl : r = 2 ^ 24 := by
      have : (r : ℚ) < 2 ^ 24 + 1 := by rcases hnearest.above with h | ⟨-, h⟩ <;> linarith
      have : r < 2 ^ 24 + 1 := by exact_mod_cast this
      omega
    refine ⟨2 ^ 23, e + 1, true, ⟨by decide, Int.le_add_one hbound, fun _ => le_refl _,
      ⟨fun _ => ⟨rfl, Int.lt_add_one_iff.mpr hbound⟩, fun _ => rfl⟩⟩, hnearest.near_carry hgreatest e, ?_⟩
    rw [magnitude, magnitude]
    omega

/-! ## Words -/

theorem ofBits_toBits (y : Float32) : Float32.ofBits y.toBits = y := by
  obtain ⟨⟨bits, valid⟩⟩ := y
  have hbits := @Double.pack_unpack .binary32 (by decide) bits.toBitVec valid
  simp only [Float32.ofBits, Float32.toBits, Float32.Model.ofBits, Float32.Model.pack, hbits]

/-- The word of a finite single is its magnitude, with the sign in front. -/
theorem toBits_eq {y : Float32} {negative narrow : Bool} {m : Nat} {e : Int}
    (hy : y.binary = .finite negative m e narrow) :
    (y.toBits.toNat : Int) = (if negative then 2 ^ 31 else 0) + magnitude m e ∧ magnitude m e < 255 * 2 ^ 23 := by
  have hlt := y.toBits.toNat_lt
  have hexponent : ((y.toBits >>> 23) &&& 0xff).toNat = y.toBits.toNat / 2 ^ 23 % 256 := by
    rw [UInt32.toNat_and, UInt32.toNat_shiftRight, Nat.shiftRight_eq_div_pow]
    exact Nat.and_two_pow_sub_one_eq_mod _ 8
  have hfraction : (y.toBits &&& 0x7fffff).toNat = y.toBits.toNat % 2 ^ 23 := by
    rw [UInt32.toNat_and]
    exact Nat.and_two_pow_sub_one_eq_mod _ 23
  have hsign : (y.toBits >>> 31 == 1) = true ↔ y.toBits.toNat / 2 ^ 31 = 1 := by
    rw [beq_iff_eq, ← UInt32.toNat_inj, UInt32.toNat_shiftRight, Nat.shiftRight_eq_div_pow]
    rfl
  simp only [Float32.binary, Binary.ofFields, hexponent, hfraction] at hy
  generalize (y.toBits >>> 31 == 1) = sign at hy hsign
  generalize y.toBits.toNat = b at *
  have hfields : b = b / 2 ^ 31 * 2 ^ 31 + b / 2 ^ 23 % 256 * 2 ^ 23 + b % 2 ^ 23 := by omega
  have hbit : (if sign then 2 ^ 31 else 0 : Int) = b / 2 ^ 31 * 2 ^ 31 := by
    cases sign with
    | true =>
      have := hsign.mp rfl
      simp only [if_true]
      omega
    | false =>
      have : b / 2 ^ 31 ≠ 1 := fun h => Bool.noConfusion (hsign.mpr h)
      simp only [Bool.false_eq_true, if_false]
      omega
  split at hy
  · split at hy <;> cases hy
  split at hy
  · cases hy
    rw [hbit, magnitude]
    omega
  · cases hy
    rw [hbit, magnitude, Nat.one_shiftLeft]
    omega

/-- A single is finite unless its exponent is the greatest. -/
theorem isFinite_iff (y : Float32) :
    y.isFinite = true ↔ ∃ negative m e narrow, y.binary = .finite negative m e narrow := by
  have hexponent : ((y.toBits >>> 23) &&& 0xff).toNat = (@unpackExponent .binary32 y.toBits.toBitVec).toNat := by
    rw [UInt32.toNat_and, UInt32.toNat_shiftRight, Nat.shiftRight_eq_div_pow, unpackExponent, BitVec.toNat_cast,
      BitVec.extractLsb_toNat, Nat.shiftRight_eq_div_pow]
    exact Nat.and_two_pow_sub_one_eq_mod _ 8
  have hfinite : y.isFinite = true ↔ (@unpackExponent .binary32 y.toBits.toBitVec).toNat ≠ 255 :=
    (Double.isFinite_unpack _).trans BitVec.toNat_ne
  rw [hfinite, Float32.binary, Binary.ofFields, hexponent]
  split
  case isTrue h =>
    refine iff_of_false (not_not.mpr h) ?_
    split <;> simp
  case isFalse h =>
    refine iff_of_true h ?_
    split <;> exact ⟨_, _, _, _, rfl⟩

end Single

namespace Double

variable {x : Float} {s : Sign} {q : ℚ}

section Fields

variable (b : BitVec Format.binary64.numBits)

theorem toNat_unpackExponent : (unpackExponent b).toNat = b.toNat / 2 ^ 52 % 2 ^ 11 := by
  rw [unpackExponent, BitVec.toNat_cast, BitVec.extractLsb_toNat, Nat.shiftRight_eq_div_pow]
  rfl

theorem toNat_unpackMantissa : (unpackMantissa b).toNat = b.toNat % 2 ^ 52 := by
  rw [unpackMantissa, BitVec.toNat_cast, BitVec.extractLsb_toNat, Nat.shiftRight_zero]
  rfl

theorem toNat_unpackSign : (unpackSign b).toNat = b.toNat / 2 ^ 63 := by
  rw [unpackSign, BitVec.toNat_cast, BitVec.extractLsb_toNat, Nat.shiftRight_eq_div_pow]
  show b.toNat / 2 ^ 63 % 2 ^ 1 = _
  have hlt : b.toNat < 2 ^ 64 := b.isLt
  omega

end Fields

/-- The fields of a double of full precision. -/
theorem fields_of_value {m : Nat} {e : Int} {h : 0 < m} (hx : x.toModel.unpack = .finite s m e h) (hm : 2 ^ 52 ≤ m) :
    ∃ f g : Nat, m = 2 ^ 52 + g ∧ e = f - 1075 ∧ 0 < f ∧ f < 2047 ∧ g < 2 ^ 52 ∧
      ((x.toBits >>> 52) &&& 0x7ff).toNat = f ∧ (x.toBits &&& 0xfffffffffffff).toNat = g ∧
      (x.toBits >>> 63).toNat = s.toBitVec.toNat := by
  obtain ⟨b, hb⟩ : ∃ b : BitVec Format.binary64.numBits, b = x.toBits.toBitVec := ⟨_, rfl⟩
  have hword : b.toNat = x.toBits.toNat := congrArg BitVec.toNat hb
  have hexponent : ((x.toBits >>> 52) &&& 0x7ff).toNat = (unpackExponent b).toNat := by
    rw [UInt64.toNat_and, UInt64.toNat_shiftRight, Nat.shiftRight_eq_div_pow, toNat_unpackExponent, hword]
    exact Nat.and_two_pow_sub_one_eq_mod _ 11
  have hfraction : (x.toBits &&& 0xfffffffffffff).toNat = (unpackMantissa b).toNat := by
    rw [UInt64.toNat_and, toNat_unpackMantissa, hword]
    exact Nat.and_two_pow_sub_one_eq_mod _ 52
  have hsign : (x.toBits >>> 63).toNat = (unpackSign b).toNat := by
    rw [UInt64.toNat_shiftRight, Nat.shiftRight_eq_div_pow, toNat_unpackSign, hword]
    rfl
  have hx' : unpack .binary64 b = .finite s m e h := hb ▸ hx
  rcases unpack_cases b with ⟨-, -, hu⟩ | ⟨-, -, hu⟩ | ⟨-, -, hu⟩ | ⟨-, hpos, hu⟩ | ⟨hinfinite, hzero, hpos, hu⟩
  · cases hx'.symm.trans hu
  · cases hx'.symm.trans hu
  · cases hx'.symm.trans hu
  · cases hx'.symm.trans hu
    exact absurd (unpackMantissa b).isLt (not_lt.mpr hm)
  · cases hx'.symm.trans hu
    have hlt : (unpackExponent b).toNat < 2048 := (unpackExponent b).isLt
    have hinfinite' : (unpackExponent b).toNat ≠ 2047 := BitVec.toNat_ne.mp hinfinite
    have hzero' : (unpackExponent b).toNat ≠ 0 := BitVec.toNat_ne.mp hzero
    refine ⟨_, _, rfl, rfl, by omega, by omega, (unpackMantissa b).isLt, hexponent, hfraction, ?_⟩
    rw [hsign, toBitVec_ofBitVec]

theorem shiftRound_eq_zero {n k : Nat} (hn : n < 2 ^ 53) (hk : 55 ≤ k) : n.shiftRound k = 0 := by
  have hpow : 2 ^ 55 ≤ 2 ^ k := Nat.pow_le_pow_right (by decide) hk
  have hup := (shiftRound_bounds n k).1
  by_contra hne
  have := Nat.le_mul_of_pos_left (2 ^ k) (Nat.pos_of_ne_zero hne)
  omega

theorem toNat_min (a b : UInt64) : (min a b).toNat = min a.toNat b.toNat := by
  show (if a ≤ b then a else b).toNat = _
  split
  case isTrue h => exact (Nat.min_eq_left (UInt64.le_iff_toNat_le.mp h)).symm
  case isFalse h => exact (Nat.min_eq_right (Nat.le_of_not_le (mt UInt64.le_iff_toNat_le.mpr h))).symm

/-- The digits of a single, as they are computed from the fields of a double. -/
def magnitudeOf (exponent mantissa : UInt64) : UInt64 :=
  if 897 < exponent then ((exponent - 897) <<< 23) + mantissa.shiftRound 29
  else mantissa.shiftRound (min (926 - exponent) 60)

/-- They are the magnitude of a rounded mantissa. -/
theorem toNat_magnitudeOf {exponent mantissa : UInt64} (hexponent : exponent.toNat < 2047)
    (hmantissa : mantissa.toNat < 2 ^ 53) (hlow : 2 ^ 52 ≤ mantissa.toNat) :
    ∃ (k : Nat) (e : Int), 29 ≤ k ∧ (e = -149 ∨ (-149 < e ∧ k = 29 ∧ 2 ^ 52 ≤ mantissa.toNat)) ∧
      e - k = exponent.toNat - 1075 ∧
      ((magnitudeOf exponent mantissa).toNat : Int) = Single.magnitude (mantissa.toNat.shiftRound k) e := by
  have h897 : (897 : UInt64).toNat = 897 := rfl
  have h926 : (926 : UInt64).toNat = 926 := rfl
  by_cases hlarge : 897 < exponent
  · have hlarge' := UInt64.lt_iff_toNat_lt.mp hlarge
    rw [h897] at hlarge'
    refine ⟨29, exponent.toNat - 1046, le_refl _, Or.inr ⟨by omega, rfl, hlow⟩, by omega, ?_⟩
    have hshift : ((exponent - 897) <<< 23).toNat = (exponent.toNat - 897) * 2 ^ 23 := by
      rw [UInt64.toNat_shiftLeft, UInt64.toNat_sub_of_le _ _ (UInt64.le_iff_toNat_le.mpr (by omega)), h897,
        Nat.shiftLeft_eq]
      show (exponent.toNat - 897) * 2 ^ 23 % 2 ^ 64 = _
      exact Nat.mod_eq_of_lt (by omega)
    have hround : (mantissa.shiftRound 29).toNat = mantissa.toNat.shiftRound 29 :=
      UInt64.toNat_shiftRound _ (by decide) (by decide)
    have hbound := (shiftRound_bounds mantissa.toNat 29).1
    rw [magnitudeOf, if_pos hlarge, UInt64.toNat_add, hshift, hround, Nat.mod_eq_of_lt (by omega), Single.magnitude]
    omega
  · have hlarge' := mt UInt64.lt_iff_toNat_lt.mpr hlarge
    rw [h897] at hlarge'
    refine ⟨926 - exponent.toNat, -149, by omega, Or.inl rfl, by omega, ?_⟩
    have hshift : (926 - exponent).toNat = 926 - exponent.toNat := by
      rw [UInt64.toNat_sub_of_le _ _ (UInt64.le_iff_toNat_le.mpr (by omega)), h926]
    have hmin : (min (926 - exponent) 60).toNat = min (926 - exponent.toNat) 60 := by
      rw [toNat_min, hshift]
      rfl
    have hround : (mantissa.shiftRound (min (926 - exponent) 60)).toNat =
        mantissa.toNat.shiftRound (min (926 - exponent.toNat) 60) := by
      rw [UInt64.toNat_shiftRound _ (UInt64.lt_iff_toNat_lt.mpr ?_) (UInt64.lt_iff_toNat_lt.mpr ?_), hmin]
      · rw [hmin]
        show 0 < _
        omega
      · rw [hmin]
        show _ < 64
        omega
    rw [magnitudeOf, if_neg hlarge, hround, Single.magnitude, neg_add_cancel, zero_mul, zero_add]
    rcases Nat.le_total (926 - exponent.toNat) 60 with hle | hle
    · rw [Nat.min_eq_left hle]
    · rw [Nat.min_eq_right hle, shiftRound_eq_zero hmantissa (by decide), shiftRound_eq_zero hmantissa (by omega)]

/-- A sign and the digits of a finite single make one word. -/
theorem toNat_word {sign digits : UInt64} (hsign : sign.toNat < 2) (hdigits : digits.toNat < 255 * 2 ^ 23) :
    ((sign.toUInt32 <<< 31) ||| (min digits 0x7f800000).toUInt32).toNat = sign.toNat * 2 ^ 31 + digits.toNat := by
  have hmin : (min digits 0x7f800000).toNat = digits.toNat := by
    rw [toNat_min]
    exact Nat.min_eq_left hdigits.le
  have hshift : (sign.toUInt32 <<< 31).toNat = 2 ^ 31 * sign.toNat := by
    rw [UInt32.toNat_shiftLeft, UInt64.toNat_toUInt32, Nat.shiftLeft_eq, Nat.mul_comm]
    show 2 ^ 31 * (sign.toNat % 2 ^ 32) % 2 ^ 32 = _
    omega
  rw [UInt32.toNat_or, hshift, UInt64.toNat_toUInt32, hmin, Nat.mod_eq_of_lt (by omega),
    ← Nat.two_pow_add_eq_or_of_lt (by omega), Nat.mul_comm]

theorem toSingle_eq {x : Float} (hfinite : (x.toBits >>> 52) &&& 0x7ff ≠ 2047) (hnormal : (x.toBits >>> 52) &&& 0x7ff ≠ 0) :
    x.toSingle = Float32.ofBits (((x.toBits >>> 63).toUInt32 <<< 31) ||| (min (magnitudeOf ((x.toBits >>> 52) &&& 0x7ff)
      ((x.toBits &&& 0xfffffffffffff) ||| 0x10000000000000)) 0x7f800000).toUInt32) := by
  simp only [Float.toSingle]
  rw [if_neg hfinite, if_neg hnormal]
  rfl

/-- **A double becomes the single to which its value rounds.** -/
theorem Value.toSingle (hx : Value x s q) {y : Float32} {negative narrow : Bool} {m : Nat} {e : Int}
    (hy : y.binary = .finite negative m e narrow) (hsign : s = if negative then .negative else .positive)
    (hnear : Binary.Near m e narrow q) : x.toSingle = y := by
  obtain ⟨M, E, h, hu, hlow, hhigh, -, -, rfl⟩ := hx
  obtain ⟨f, g, rfl, rfl, hf, hf', hg, hexponent, hfraction, hbit⟩ := fields_of_value hu hlow
  have hmantissa : ((x.toBits &&& 0xfffffffffffff) ||| 0x10000000000000).toNat = 2 ^ 52 + g := by
    rw [UInt64.toNat_or, hfraction, Nat.or_comm]
    exact (Nat.two_pow_add_eq_or_of_lt hg 1).symm
  obtain ⟨k, e', hk, he', hdifference, hmagnitude⟩ := toNat_magnitudeOf (hexponent.trans_lt hf')
    (by omega : ((x.toBits &&& 0xfffffffffffff) ||| 0x10000000000000).toNat < 2 ^ 53) (by omega)
  rw [hmantissa] at hmagnitude he'
  obtain ⟨m', e'', narrow', hstored, hnear', heq⟩ := Single.exists_near hhigh hk he'
  -- both singles are the one to which the value rounds
  have hformat := ofFormat_single y
  rw [hy] at hformat
  rw [hdifference, hexponent] at hnear'
  obtain ⟨rfl, rfl, rfl⟩ := hnear'.unique hstored hformat.1 hnear
  obtain ⟨hword, hfinite⟩ := Single.toBits_eq hy
  rw [heq, ← hmagnitude] at hword hfinite
  have hnormal : ∀ n, n = 0 ∨ n = 2047 → (x.toBits >>> 52) &&& 0x7ff ≠ n := by
    rintro n hn rfl
    rcases hn with hn | hn <;> rw [hn] at hexponent <;> simp at hexponent <;> omega
  have hone : (x.toBits >>> 63).toNat = if negative then 1 else 0 := by
    rw [hbit, hsign]
    cases negative <;> rfl
  rw [toSingle_eq (hnormal _ (Or.inr rfl)) (hnormal _ (Or.inl rfl)), ← Single.ofBits_toBits y]
  congr 1
  rw [← UInt32.toNat_inj, toNat_word (by rw [hone]; split <;> decide) (by omega), hone]
  cases negative <;> simp only [if_true, Bool.false_eq_true, if_false] at hword ⊢ <;> omega

end Double

end Arbor
