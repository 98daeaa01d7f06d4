import Arbor.Proofs.Decimal.Clear
import Arbor.Proofs.Double.Single
import Arbor.Proofs.Json.Number
import Arbor.Proofs.Json.Writing

/-!
# Singles are read back

The text of a single is the shortest decimal that rounds to it, and the reader makes a double of that decimal which need
not be the nearest one. It is rounded to the same single nevertheless (`Token.spelled_single`): the decimal is clear of
the middles between the single and its neighbours by more than the reader can be off, or it is such a middle and read
exactly (`Binary.Near.of_clear`). One decimal is too close to a middle for that argument; what is read of it is computed
(`Json.near_exception`).
-/

namespace Arbor

open Double

/-! ## What a reader may be off by -/

/-- **What is read with a small error still rounds to the single,** if the decimal is clear of its middles. -/
theorem Binary.Near.of_clear {m : Nat} {e : Int} {narrow : Bool} {d : Decimal} {r : ℚ} (hm : m < 2 ^ 24) (hpos : 0 < m)
    (hd : 0 < d.digits) (hnear : Near m e narrow (d.digits * 10 ^ d.exponent))
    (hclear : ClearOf ((4 * m - if narrow then 1 else 2) * 2 ^ (e - 2)) d ∧ ClearOf ((4 * m + 2) * 2 ^ (e - 2)) d)
    (hclose : Close r (d.digits * 10 ^ d.exponent))
    (hrounds : -11 ≤ d.exponent → d.exponent ≤ 11 → Rounds r (d.digits * 10 ^ d.exponent)) : Near m e narrow r := by
  have hq : (0 : ℚ) < d.digits * 10 ^ d.exponent := by
    have : (0 : ℚ) < d.digits := by exact_mod_cast hd
    positivity
  -- a middle is read as it is
  have hmiddle : ∀ (n : Nat) (middle : ℚ), n < 2 ^ 53 → middle = n * 2 ^ (e - 2) → ClearOf middle d →
      (d.digits * 10 ^ d.exponent : ℚ) = middle → r = middle := by
    intro n middle hn hvalue hclear heq
    rcases hclear with h | ⟨-, hlow, hhigh⟩
    · refine absurd ?_ h
      rw [heq] at hq
      rw [heq, Close, sub_self, abs_zero]
      positivity
    · rw [← heq]
      exact (hrounds hlow hhigh).exact n (e - 2) hn (heq.trans hvalue)
  have hapart : ∀ middle : ℚ, ClearOf middle d → (d.digits * 10 ^ d.exponent : ℚ) ≠ middle →
      |r - d.digits * 10 ^ d.exponent| < |middle - d.digits * 10 ^ d.exponent| := by
    intro middle hclear hne
    rcases hclear with h | ⟨heq, -⟩
    · exact hclose.trans_lt (not_le.mp h)
    · exact absurd heq hne
  have hlow : ((4 * m - if narrow then 1 else 2 : ℕ) : ℚ) = 4 * m - if narrow then 1 else 2 := by
    rw [Nat.cast_sub (by split <;> omega)]
    push_cast
    split <;> rfl
  obtain ⟨hclear, hclear'⟩ := hclear
  refine ⟨?_, ?_⟩
  · rcases hnear.1 with h | ⟨heven, h⟩
    · left
      have hlt := hapart _ hclear h.ne'
      rw [abs_of_neg (sub_neg.mpr h)] at hlt
      have := neg_le_abs (r - d.digits * 10 ^ d.exponent)
      linarith
    · exact Or.inr ⟨heven, (hmiddle (4 * m - if narrow then 1 else 2) _ (by omega) (by rw [hlow]) hclear h.symm).symm⟩
  · rcases hnear.2 with h | ⟨heven, h⟩
    · left
      have hlt := hapart _ hclear' h.ne
      rw [abs_of_pos (sub_pos.mpr h)] at hlt
      have := le_abs_self (r - d.digits * 10 ^ d.exponent)
      linarith
    · exact Or.inr ⟨heven, hmiddle (4 * m + 2) _ (by omega) (by push_cast; rfl) hclear' h⟩

namespace Json

open Float.Model Float.Model.UnpackedFloat

/-- The number of a decimal's writing is read with a small error, and with a small power of ten it is rounded once. -/
theorem Writing.For.read {w : Writing} {d : Decimal} (hw : w.For d 12) (hd : Binary.Handy d) (negative : Bool) :
    ∃ f r, Number.ofNumeral? (w.numeral negative) = some (.double (if negative then -f else f)) ∧ Value f .positive r ∧
      Close r (d.digits * 10 ^ d.exponent) ∧
      (-11 ≤ d.exponent → d.exponent ≤ 11 → Rounds r (d.digits * 10 ^ d.exponent)) ∧
      (d.exponent < -1 → Number.scale? (Float.ofNat d.digits) d.exponent 4 = some f) := by
  obtain ⟨zeros, hdigits, hscale, hzeros⟩ := hw.digits
  have hlow := hd.low
  have hhigh := hd.high
  have hsize : d.digits * 10 ^ zeros < 2 ^ 53 := by
    rcases hzeros with rfl | ⟨-, h⟩
    · rw [Nat.pow_zero, Nat.mul_one]
      exact hd.lt
    · exact h.trans (by decide)
  have hvalue : ((d.digits * 10 ^ zeros : ℕ) * 10 ^ (d.exponent - zeros) : ℚ) = d.digits * 10 ^ d.exponent := by
    push_cast
    rw [mul_assoc, ← zpow_natCast, ← zpow_add₀ (by norm_num), add_sub_cancel]
  obtain ⟨f, r, hf, hr, hclose, hrounds⟩ := Number.scale?_value (n := d.digits * 10 ^ zeros) (t := d.exponent - zeros)
    (Nat.mul_pos hd.pos (by positivity)) hsize (by omega) (by omega)
  rw [hvalue] at hclose hrounds
  refine ⟨f, r, ?_, hr, hclose, fun _ _ => hrounds (by omega) (by omega), fun hsmall => ?_⟩
  · rw [Number.ofNumeral?_numeral hw.marked negative (by rw [hdigits]; exact hsize.le.trans (by decide)) hw.exponent,
      hdigits, hscale, Number.ofParts?, hf]
    rfl
  · obtain rfl : zeros = 0 := by omega
    simpa using hf

/-! ## The exception -/

theorem shortest_exception : Binary.shortest .even 11420669 (-107) false = ⟨7038531, -32⟩ := by decide +kernel

/-- An unpacked double between the middles to the neighbours of the exceptional single. -/
def isExceptional : UnpackedFloat → Bool
  | .finite .positive m e _ =>
    e ≤ -109 ∧ (4 * 11420669 - 2) * 2 ^ (-109 - e).toNat < m ∧ m < (4 * 11420669 + 2) * 2 ^ (-109 - e).toNat
  | _ => false

theorem scale?_exception :
    ∀ f ∈ Number.scale? (Float.ofNat 7038531) (-32) 4, isExceptional f.toModel.unpack = true := by
  decide +kernel

/-- The single whose decimal is close to a middle is read back nevertheless. -/
theorem near_exception {f : Float} {r : ℚ} (hf : Number.scale? (Float.ofNat 7038531) (-32) 4 = some f)
    (hr : Value f .positive r) : Binary.Near 11420669 (-107) false r := by
  have hcheck := scale?_exception f hf
  obtain ⟨m, e, h, hu, -, -, -, -, rfl⟩ := hr
  rw [hu] at hcheck
  simp only [isExceptional, decide_eq_true_eq] at hcheck
  obtain ⟨he, hlow, hhigh⟩ := hcheck
  have hscale : (2 : ℚ) ^ (-107 - 2 : Int) = 2 ^ (-109 - e).toNat * 2 ^ e := by
    rw [← zpow_natCast, ← zpow_add₀ (by norm_num)]
    congr 1
    omega
  have hpos : (0 : ℚ) < 2 ^ e := by positivity
  have hlow' : (((4 * 11420669 - 2) * 2 ^ (-109 - e).toNat : ℕ) : ℚ) < m := by exact_mod_cast hlow
  have hhigh' : (m : ℚ) < ((4 * 11420669 + 2) * 2 ^ (-109 - e).toNat : ℕ) := by exact_mod_cast hhigh
  rw [Binary.Near, hscale, ← mul_assoc, ← mul_assoc]
  refine ⟨Or.inl (mul_lt_mul_of_pos_right ?_ hpos), Or.inl (mul_lt_mul_of_pos_right ?_ hpos)⟩
  · push_cast at hlow' ⊢
    norm_num at hlow' ⊢
    exact hlow'
  · push_cast at hhigh' ⊢
    norm_num at hhigh' ⊢
    exact hhigh'

/-! ## Singles -/

/-- A single without digits is zero. -/
theorem single_of_zero {y : Float32} {negative narrow : Bool} {e : Int} (hy : y.binary = .finite negative 0 e narrow) :
    y = Float32.ofBits (if negative then 0x80000000 else 0) := by
  have hformat := ofFormat_single y
  rw [hy] at hformat
  obtain rfl : e = -149 := by
    by_contra hne
    exact absurd (hformat.1.full (lt_of_le_of_ne hformat.1.least_le (Ne.symm hne))) (by decide)
  have hbits := (Single.toBits_eq hy).1
  rw [← Single.ofBits_toBits y]
  congr 1
  rw [← UInt32.toNat_inj]
  rw [Single.magnitude] at hbits
  cases negative <;> simp at hbits ⊢ <;> omega

/-- Zeros are read as zeros. -/
theorem toSingle_zero : ∀ negative,
    (Number.ofNumeral? (Writing.numeral ⟨['0'], some ['0'], none⟩ negative)).map Number.toSingle =
      some (Float32.ofBits (if negative then 0x80000000 else 0)) := by
  decide +kernel

/-- What is read of the decimal of a single rounds to the single. -/
theorem near_shortest {m : Nat} {e : Int} {narrow : Bool} (hstored : Binary.Stored 23 (-149) m e narrow) (hpos : 0 < m)
    (hgreatest : e ≤ 104) {d : Decimal} (hd : Binary.shortest .even m e narrow = d) {f : Float} {r : ℚ}
    (hvalue : Value f .positive r) (hclose : Close r (d.digits * 10 ^ d.exponent))
    (hrounds : -11 ≤ d.exponent → d.exponent ≤ 11 → Rounds r (d.digits * 10 ^ d.exponent))
    (hscale : d.exponent < -1 → Number.scale? (Float.ofNat d.digits) d.exponent 4 = some f) :
    Binary.Near m e narrow r := by
  have hleast := hstored.least_le
  by_cases hexception : m = 11420669 ∧ e = -107
  · obtain ⟨rfl, rfl⟩ := hexception
    obtain rfl : narrow = false := by
      by_contra h
      exact absurd (hstored.narrow_iff.mp (Bool.not_eq_false _ ▸ h)).1 (by decide)
    obtain rfl : d = ⟨7038531, -32⟩ := hd.symm.trans shortest_exception
    exact near_exception (hscale (by decide)) hvalue
  · have hnear := Binary.shortest_near .even narrow hpos (hstored.lt.trans (by decide)) (by omega : -1074 ≤ e) (by omega)
    have hhandy := Binary.shortest_handy hstored hpos hgreatest
    have hclear := Binary.shortest_clear hstored hpos hgreatest hexception
    simp only [hd] at hnear hhandy hclear
    exact .of_clear hstored.lt hpos hhandy.pos hnear hclear hclose hrounds

theorem text_single {y : Float32} {negative narrow : Bool} {m : Nat} {e : Int}
    (hy : y.binary = .finite negative m e narrow) : (Number.text (.single y)).toList =
      (if negative then ['-'] else []) ++
        (if m = 0 then "0.0" else singleStyle.decimalText (Binary.shortest .even m e narrow)).toList := by
  have htext : Number.text (.single y) = (if negative then "-" else "") ++
      if m = 0 then "0.0" else singleStyle.decimalText (Binary.shortest .even m e narrow) := by
    rw [Number.text, hy, apply_ite ((if negative then "-" else "") ++ ·)]
    rfl
  rw [htext, String.toList_append]
  cases negative <;> rfl

/-- **A finite single is read back from its text,** through the double that the reader makes of it. -/
theorem Token.spelled_single {y : Float32} (hy : y.isFinite = true) :
    ∃ v : Number, v.toSingle = y ∧ Spelled (Number.text (.single y)).toList (.word (.number v)) := by
  obtain ⟨negative, m, e, narrow, hbinary⟩ := (Single.isFinite_iff y).mp hy
  have hformat := ofFormat_single y
  rw [hbinary] at hformat
  obtain ⟨hstored, hgreatest⟩ := hformat
  rw [text_single hbinary]
  rcases Nat.eq_zero_or_pos m with rfl | hpos
  · obtain ⟨v, hread, hv⟩ := Option.map_eq_some_iff.mp (toSingle_zero negative)
    have hproper : Writing.Proper ⟨['0'], some ['0'], none⟩ :=
      ⟨by simp, ⟨'0', [], rfl, Or.inl rfl⟩, by simp, by simp⟩
    have hspelled := spelled_number hproper negative
    rw [ofNumeral, hread] at hspelled
    rw [if_pos rfl]
    exact ⟨v, hv.trans (single_of_zero hbinary).symm, hspelled⟩
  · have hhandy := Binary.shortest_handy hstored hpos hgreatest
    have hlow := hhandy.low
    have hhigh := hhandy.high
    have hlength : (Nat.toDigits 10 (Binary.shortest .even m e narrow).digits).length ≤ 16 :=
      (Nat.length_toDigits_le_iff (by decide) (by decide)).mpr (hhandy.lt.trans (by decide))
    obtain ⟨w, hw, hchars⟩ := @Writing.for_decimalText singleStyle (-6) 12 (Binary.shortest .even m e narrow) rfl rfl
      hhandy.pos (by omega)
    obtain ⟨f, r, hread, hvalue, hclose, hrounds, hscale⟩ := hw.read hhandy negative
    have hnear := near_shortest hstored hpos hgreatest rfl hvalue hclose hrounds hscale
    have hspelled := spelled_number hw.proper negative
    rw [ofNumeral, hread] at hspelled
    rw [if_neg hpos.ne', hchars]
    refine ⟨_, ?_, hspelled⟩
    cases negative with
    | false => exact hvalue.toSingle hbinary rfl hnear
    | true => exact hvalue.neg.toSingle hbinary rfl hnear

end Json
end Arbor
