import Arbor.Proofs.Draw.Weighted
import Arbor.Proofs.Refusal
import Arbor.Proofs.Sentence.Settled
import Mathlib.Tactic.Linarith
import Mathlib.Tactic.Ring

/-!
# Steps over exact numbers

Read over exact numbers, the loop of squarings is the power (`Scalar.npow_ofField`), what a factor leaves at a depth is
not negative if the factor is not (`Scalar.decay_ofField_nonneg`), and a jitter moves along a straight line from
`1 - variability` to `1 + variability` while its draw goes through `[0, 1)` (`Draw.jitter_ofField`, `Draw.jitter_bounds`).
A habit that is accepted has factors and a variability of the kind that this asks for (`Habit.bounds_of_check`).
-/

namespace Arbor

variable {K : Type} [Field K] [LinearOrder K]

namespace Scalar

/-! ## Powers -/

/-- The loop multiplies by the power: what the digits of `n` leave of it is what the loop has still to do. -/
theorem npowOnto_ofField (f : Functions K) (n : Nat) : ∀ acc x : K, @npowOnto K (ofField f) acc x n = acc * x ^ n := by
  induction n using Nat.strongRecOn with
  | ind n ih =>
    intro acc x
    have hdigit : (if n % 2 = 1 then acc * x else acc) = acc * x ^ (n % 2) := by
      rcases Nat.mod_two_eq_zero_or_one n with h | h
      · rw [h, if_neg (by decide), pow_zero, mul_one]
      · rw [h, if_pos rfl, pow_one]
    have hstep : @npowOnto K (ofField f) acc x n =
        let acc := if n % 2 = 1 then acc * x else acc
        if n < 2 then acc else @npowOnto K (ofField f) acc (x * x) (n / 2) := @npowOnto.eq_def K (ofField f) acc x n
    rw [hstep, hdigit]
    by_cases hn : n < 2
    · rw [if_pos hn, Nat.mod_eq_of_lt hn]
    · rw [if_neg hn, ih (n / 2) (by omega)]
      calc acc * x ^ (n % 2) * (x * x) ^ (n / 2)
          = acc * x ^ (n % 2 + 2 * (n / 2)) := by rw [← pow_two, ← pow_mul, mul_assoc, ← pow_add]
        _ = acc * x ^ n := by rw [Nat.mod_add_div]

theorem npow_ofField (f : Functions K) (x : K) (n : Nat) : @npow K (ofField f) x n = x ^ n := by
  show @npowOnto K (ofField f) ((1 : ℕ) : K) x n = x ^ n
  rw [npowOnto_ofField, Nat.cast_one, one_mul]

/-- Up to depth `2 ^ 31` a factor leaves its power. -/
theorem decay_ofField_of_lt (f : Functions K) (factor : K) {depth : Nat} (h : depth < 2147483648) :
    @decay K (ofField f) factor depth = factor ^ depth := by
  rw [@decay_of_lt K (ofField f) factor depth h, npow_ofField]

theorem decay_ofField_nonneg [IsStrictOrderedRing K] (f : Functions K) {factor : K} (h : 0 ≤ factor) (depth : Nat) :
    0 ≤ @decay K (ofField f) factor depth := by
  have hpow (n : Nat) : 0 ≤ @npow K (ofField f) factor n := by
    rw [npow_ofField]
    exact pow_nonneg h n
  unfold decay zpow
  split
  · exact div_nonneg (Nat.cast_nonneg 1) (hpow _)
  · exact hpow _

end Scalar

namespace Draw

open Scalar (Functions ofField)

/-! ## Jitter -/

/-- A jitter is a straight line in its draw. Without variability there is no draw, and the line is level. -/
theorem jitter_ofField (f : Functions K) (variability : K) (rng : Rng) :
    ((@jitter K (ofField f) variability).run rng).1 =
      1 + variability * ((rng.next.1.toNat : K) / 4294967296 - 1 / 2) * 2 := by
  have hrun : (@jitter K (ofField f) variability).run rng =
      if decide (variability = ((0 : ℕ) : K)) then (((1 : ℕ) : K), rng)
      else (((1 : ℕ) : K) + variability * (@fraction K (ofField f) rng.next.1 - ((1 : ℕ) : K) / ((2 : ℕ) : K)) *
        ((2 : ℕ) : K), rng.next.2) := @run_jitter K (ofField f) variability rng
  rw [hrun, fraction_ofField, Nat.cast_zero, Nat.cast_one, Nat.cast_ofNat]
  by_cases h : variability = 0
  · rw [if_pos (decide_eq_true h), h, zero_mul, zero_mul, add_zero]
  · rw [if_neg (by simpa using h)]

/-- **A jitter stays between `1 - variability` and `1 + variability`.** -/
theorem jitter_bounds [IsStrictOrderedRing K] (f : Functions K) {variability : K} (h : 0 ≤ variability) (rng : Rng) :
    1 - variability ≤ ((@jitter K (ofField f) variability).run rng).1 ∧
      ((@jitter K (ofField f) variability).run rng).1 ≤ 1 + variability := by
  obtain ⟨hnonneg, hone⟩ := fraction_bounds (K := K) rng.next.1
  rw [jitter_ofField]
  generalize (rng.next.1.toNat : K) / 4294967296 = r at hnonneg hone
  have hlow : 0 ≤ variability * r := mul_nonneg h hnonneg
  have hhigh : 0 ≤ variability * (1 - r) := mul_nonneg h (sub_nonneg.mpr hone.le)
  constructor
  · linarith
  · linarith

end Draw

/-! ## Accepted habits -/

open Scalar (Functions ofField)

theorem Setting.nonNegative_ofField (f : Functions K) {name : String} {x : K} :
    @Setting.nonNegative K (ofField f) name x = .ok () ↔ 0 ≤ x := by
  have hcheck : @Setting.nonNegative K (ofField f) name x =
      if true = true ∧ ¬x < ((0 : ℕ) : K) then .ok () else .error (.negative name x) := rfl
  rw [hcheck, Except.ite_eq_ok_iff, Nat.cast_zero, and_iff_right rfl, not_lt]

theorem Setting.atMostOne_ofField (f : Functions K) {name : String} {x : K} :
    @Setting.atMostOne K (ofField f) name x = .ok () ↔ x ≤ 1 := by
  have hcheck : @Setting.atMostOne K (ofField f) name x =
      if ((1 : ℕ) : K) < x then .error (.aboveOne name x) else .ok () := rfl
  rw [hcheck, ← ite_not, Except.ite_eq_ok_iff, Nat.cast_one, not_lt]

/-- What an accepted habit has to be, as far as the lengths of steps go. -/
theorem Habit.bounds_of_check (f : Functions K) {h : Habit K} (hh : @Habit.check K (ofField f) h = .ok ()) :
    0 ≤ h.baseLength ∧ 0 ≤ h.lengthFalloff ∧ 0 ≤ h.variability ∧ h.variability ≤ 1 := by
  unfold Habit.check at hh
  simp only [Except.check_bind_eq_ok, Setting.nonNegative_ofField, Setting.atMostOne_ofField] at hh
  obtain ⟨hlength, -, hfalloff, -, hvariability, hone, -⟩ := hh
  exact ⟨hlength, hfalloff, hvariability, hone⟩

/-- An accepted habit leaves no negative length at any depth. -/
theorem Habit.full_nonneg [IsStrictOrderedRing K] (f : Functions K) {h : Habit K}
    (hh : @Habit.check K (ofField f) h = .ok ()) (depth : Nat) :
    0 ≤ h.baseLength * @Scalar.decay K (ofField f) h.lengthFalloff depth := by
  obtain ⟨hlength, hfalloff, -, -⟩ := bounds_of_check f hh
  exact mul_nonneg hlength (Scalar.decay_ofField_nonneg f hfalloff depth)

end Arbor
