import Arbor.Decimal.Shortest
import Mathlib.Algebra.Order.Field.Power
import Mathlib.Data.Rat.Cast.Order
import Mathlib.Tactic.NormNum
import Mathlib.Tactic.Positivity
import Mathlib.Tactic.Ring

/-!
# The numbers a decimal rounds to

A real rounds to a floating-point number if it lies between the middles to its two neighbours (`Binary.Near`). With the
fields stored as a format stores them (`Binary.Stored`), it rounds to one number only (`Binary.Near.unique`): the
intervals of two numbers can only meet in a middle, and there only the one with the even mantissa is closed.
-/

namespace Arbor
namespace Binary

/-- The reals that round to `mantissa * 2 ^ exponent`: all between the middles to its neighbours, and the middles
themselves if the mantissa is even. -/
def Near (mantissa : Nat) (exponent : Int) (narrow : Bool) (q : ℚ) : Prop :=
  let low : ℚ := (4 * mantissa - if narrow then 1 else 2) * 2 ^ (exponent - 2)
  let high : ℚ := (4 * mantissa + 2) * 2 ^ (exponent - 2)
  (low < q ∨ (mantissa % 2 = 0 ∧ low = q)) ∧ (q < high ∨ (mantissa % 2 = 0 ∧ q = high))

theorem near_zero (exponent : Int) (narrow : Bool) : Near 0 exponent narrow 0 := by
  have hpos : (0 : ℚ) < 2 ^ (exponent - 2) := by positivity
  have hwidth : (0 : ℚ) < if narrow then 1 else 2 := by split <;> norm_num
  refine ⟨Or.inl ?_, Or.inl ?_⟩
  · rw [Nat.cast_zero, mul_zero, zero_sub, neg_mul]
    exact neg_lt_zero.mpr (mul_pos hwidth hpos)
  · rw [Nat.cast_zero]
    positivity

/-- The fields of a number as a format with so many fraction bits stores them: the first of them is implicit unless
the exponent is the least one, and the lower neighbour of a power of two is near. -/
structure Stored (fractionBits : Nat) (least : Int) (mantissa : Nat) (exponent : Int) (narrow : Bool) : Prop where
  lt : mantissa < 2 ^ (fractionBits + 1)
  least_le : least ≤ exponent
  full : least < exponent → 2 ^ fractionBits ≤ mantissa
  narrow_iff : narrow = true ↔ mantissa = 2 ^ fractionBits ∧ least < exponent

section Unique

variable {m m' : Nat} {e e' : Int} {n n' : Bool} {q : ℚ}

/-- If one decimal rounds to two numbers, the lower end of the second is not above the upper end of the first. -/
theorem Near.ends_le (h : Near m e n q) (h' : Near m' e' n' q) (hle : e ≤ e') :
    (4 * m' - if n' then 1 else 2 : Int) * 2 ^ (e' - e).toNat < 4 * m + 2 ∨
      (m % 2 = 0 ∧ m' % 2 = 0 ∧ (4 * m' - if n' then 1 else 2 : Int) * 2 ^ (e' - e).toNat = 4 * m + 2) := by
  obtain ⟨-, hhigh⟩ := h
  obtain ⟨hlow, -⟩ := h'
  have hpos : (0 : ℚ) < 2 ^ (e - 2) := by positivity
  have hpow : (2 : ℚ) ^ (e' - 2) = 2 ^ (e' - e).toNat * 2 ^ (e - 2) := by
    rw [← zpow_natCast, ← zpow_add₀ (by norm_num)]
    congr 1
    omega
  have hcast : (((4 * m' - if n' then 1 else 2 : Int) * 2 ^ (e' - e).toNat : Int) : ℚ) * 2 ^ (e - 2) =
      (4 * m' - if n' then 1 else 2) * 2 ^ (e' - 2) := by
    rw [hpow]
    push_cast
    ring
  have hcast' : ((4 * m + 2 : Int) : ℚ) * 2 ^ (e - 2) = (4 * m + 2) * 2 ^ (e - 2) := by push_cast; rfl
  rw [← hcast] at hlow
  rw [← hcast'] at hhigh
  have hstrict : ∀ {a b : Int}, (a : ℚ) * 2 ^ (e - 2) < b * 2 ^ (e - 2) → a < b := fun h =>
    Int.cast_lt.mp (lt_of_mul_lt_mul_right h hpos.le)
  rcases hlow with hlow | ⟨heven', hlow⟩
  · rcases hhigh with hhigh | ⟨-, hhigh⟩
    · exact Or.inl (hstrict (hlow.trans hhigh))
    · exact Or.inl (hstrict (hlow.trans_eq hhigh))
  · rcases hhigh with hhigh | ⟨heven, hhigh⟩
    · exact Or.inl (hstrict (hlow.trans_lt hhigh))
    · exact Or.inr ⟨heven, heven', Int.cast_inj.mp (mul_right_cancel₀ hpos.ne' (hlow.trans hhigh))⟩

variable {fractionBits : Nat} {least : Int}

/-- A decimal rounds to no number of a greater exponent. -/
theorem Near.not_exponent_lt (hs : Stored fractionBits least m e n) (hs' : Stored fractionBits least m' e' n')
    (h : Near m e n q) (h' : Near m' e' n' q) : ¬e < e' := by
  intro hlt
  have hleast : least < e' := hs.least_le.trans_lt hlt
  have hfull := hs'.full hleast
  have hm := hs.lt
  rw [Nat.pow_succ] at hm
  obtain ⟨d, hd⟩ : ∃ d, (e' - e).toNat = d + 1 := ⟨(e' - e).toNat - 1, by omega⟩
  have hends := h.ends_le h' hlt.le
  rw [hd, Int.pow_succ] at hends
  have hD : (0 : Int) < 2 ^ d := by positivity
  -- the least that the lower end of the second can be
  have hlow : (4 * 2 ^ fractionBits - 1 : Int) ≤ 4 * m' - if n' then 1 else 2 := by
    have hcast : ((2 ^ fractionBits : Nat) : Int) = 2 ^ fractionBits := by push_cast; rfl
    rcases Nat.eq_or_lt_of_le hfull with heq | hgt
    · rw [if_pos (hs'.narrow_iff.mpr ⟨heq.symm, hleast⟩)]
      omega
    · split <;> omega
  have hpow : (0 : Int) < 2 ^ fractionBits := by positivity
  have hmul : (4 * 2 ^ fractionBits - 1 : Int) * 2 ≤ (4 * m' - if n' then 1 else 2 : Int) * (2 ^ d * 2) :=
    Int.mul_le_mul hlow (by omega) (by omega) (by omega)
  have hm' : (m : Int) < 2 ^ fractionBits * 2 := by exact_mod_cast hm
  omega

/-- **A decimal rounds to one number of a format only.** -/
theorem Near.unique (hs : Stored fractionBits least m e n) (hs' : Stored fractionBits least m' e' n')
    (h : Near m e n q) (h' : Near m' e' n' q) : m = m' ∧ e = e' ∧ n = n' := by
  obtain rfl : e = e' := le_antisymm (Int.not_lt.mp (h'.not_exponent_lt hs' hs h)) (Int.not_lt.mp (h.not_exponent_lt hs hs' h'))
  have hends := h.ends_le h' le_rfl
  have hends' := h'.ends_le h le_rfl
  rw [Int.sub_self, Int.toNat_zero, Int.pow_zero, Int.mul_one] at hends hends'
  obtain rfl : m = m' := by
    split at hends <;> split at hends' <;> omega
  exact ⟨rfl, rfl, Bool.eq_iff_iff.mpr (hs.narrow_iff.trans hs'.narrow_iff.symm)⟩

end Unique

/-! ## Formats -/

/-- The numbers of a format: the infinite ones, those that are none, and finite ones up to a greatest exponent. -/
def OfFormat (fractionBits : Nat) (least greatest : Int) : Binary → Prop
  | .finite _ mantissa exponent narrow => Stored fractionBits least mantissa exponent narrow ∧ exponent ≤ greatest
  | _ => True

theorem ofFormat_ofFields (negative : Bool) {exponent fraction fractionBits exponentLimit : Nat} (bias : Int)
    (hfraction : fraction < 2 ^ fractionBits) (hexponent : exponent ≤ exponentLimit) (htwo : 2 ≤ exponentLimit) :
    OfFormat fractionBits (1 - bias - fractionBits) (exponentLimit - 1 - bias - fractionBits)
      (ofFields negative exponent fraction fractionBits exponentLimit bias) := by
  unfold ofFields
  by_cases hlimit : exponent = exponentLimit
  · rw [if_pos hlimit]
    split <;> trivial
  rw [if_neg hlimit]
  by_cases hzero : exponent = 0
  · rw [if_pos hzero]
    refine ⟨⟨?_, le_rfl, fun h => absurd h (lt_irrefl _), ?_⟩, by omega⟩
    · rw [Nat.pow_succ]
      omega
    · simp
  · rw [if_neg hzero, Nat.one_shiftLeft]
    refine ⟨⟨?_, by omega, fun _ => Nat.le_add_left _ _, ?_⟩, by omega⟩
    · rw [Nat.pow_succ]
      omega
    · rw [decide_eq_true_eq]
      omega

end Binary

theorem ofFormat_single (x : Float32) : Binary.OfFormat 23 (-149) 104 x.binary := by
  have hfraction : (x.toBits &&& 0x7fffff).toNat < 2 ^ 23 := by
    rw [UInt32.toNat_and]
    exact Nat.lt_succ_of_le Nat.and_le_right
  have hexponent : ((x.toBits >>> 23) &&& 0xff).toNat ≤ 255 := by
    rw [UInt32.toNat_and]
    exact Nat.and_le_right
  exact Binary.ofFormat_ofFields _ 127 hfraction hexponent (by decide)

end Arbor
