import Arbor.Rng

/-!
# What always comes of a draw

`Draw.Always` says what holds of a random value from every place of the stream; a draw that goes on from another one is
followed step by step (`Always.bind`). As long as its bounds are less than `2 ^ 21` apart, so that nothing is rounded, a
whole number is drawn as the number of one word (`run_integer`), and lies within its bounds (`integer_always`).
-/

theorem Nat.shiftRound_zero (n : Nat) : n.shiftRound 0 = n := by
  have hrest : n % 1 = 0 := Nat.mod_one n
  unfold Nat.shiftRound
  simp [hrest]

/-- A number with no more digits than are kept is not rounded. -/
theorem Nat.roundSignificant_of_log2_lt {n digits : Nat} (h : n.log2 < digits) : n.roundSignificant digits = n := by
  have hdropped : n.log2 + 1 - digits = 0 := by omega
  unfold Nat.roundSignificant
  simp only [hdropped, Nat.shiftRound_zero, Nat.shiftLeft_zero]

namespace Arbor
namespace Draw

variable {β γ : Type}

/-- The value has the property, wherever in the stream it is drawn. -/
def Always (d : Draw β) (P : β → Prop) : Prop := ∀ rng, P (d.run rng).1

theorem Always.pure {P : β → Prop} {x : β} (h : P x) : Always (Pure.pure x) P := fun _ => h

theorem Always.bind {P : β → Prop} {Q : γ → Prop} {d : Draw β} {next : β → Draw γ} (hd : d.Always P)
    (hnext : ∀ x, P x → (next x).Always Q) : (d >>= next).Always Q := fun rng => by
  rw [StateT.run_bind]
  exact hnext _ (hd rng) _

theorem Always.of_always {P Q : β → Prop} {d : Draw β} (hd : d.Always P) (h : ∀ x, P x → Q x) : d.Always Q :=
  fun rng => h _ (hd rng)

/-- A draw of which nothing is known. -/
theorem always_true (d : Draw β) : d.Always fun _ => True := fun _ => trivial

/-! ## Whole numbers -/

/-- A word times a small span is not rounded. -/
theorem scaled_of_lt (word : UInt32) {span : Nat} (h : span ≤ 2097152) : scaled word span = word.toNat * span := by
  have hround : ∀ m < 9007199254740992, m.roundSignificant 53 = m := by
    intro m hm
    refine Nat.roundSignificant_of_log2_lt ?_
    rcases Nat.eq_zero_or_pos m with rfl | hpos
    · decide
    · exact (Nat.log2_lt (Nat.ne_of_gt hpos)).mpr (by omega)
  have hproduct : word.toNat * span < 4294967296 * 2097152 :=
    Nat.lt_of_le_of_lt (Nat.mul_le_mul_left _ h) (Nat.mul_lt_mul_of_pos_right word.toNat_lt (by omega))
  unfold scaled
  rw [hround span (by omega), hround _ (by omega)]

/-- The number in `low .. high` that a word stands for. -/
def integerOf (low high : Int) (word : UInt32) : Int := low + word.toNat * (high - low + 1) / 4294967296

/-- The number that a word stands for, counted from the lowest. -/
theorem integerOf_eq_iff {low high : Int} {span : Nat} (hspan : high - low + 1 = span) {word : UInt32} {j : Nat} :
    integerOf low high word = low + j ↔ word.toNat * span / 4294967296 = j := by
  rw [integerOf, hspan]
  omega

/-- **A whole number is drawn as the number of one word.** -/
theorem run_integer {low high : Int} (h : low ≤ high) (hnear : high - low + 1 ≤ 2097152) (rng : Rng) :
    (integer low high).run rng = (integerOf low high rng.next.1, rng.next.2) := by
  have hsign : (high - low + 1).sign = 1 := Int.sign_eq_one_of_pos (by omega)
  have hspan : ((high - low + 1).natAbs : Int) = high - low + 1 := by omega
  have hrun : (integer low high).run rng =
      (low + ((high - low + 1).sign * scaled rng.next.1 (high - low + 1).natAbs) / 4294967296, rng.next.2) := rfl
  rw [hrun, hsign, scaled_of_lt _ (by omega), Int.one_mul, Int.natCast_mul, hspan]
  rfl

/-- A word stands for a number within the bounds. -/
theorem integerOf_bounds {low high : Int} (h : low ≤ high) (word : UInt32) :
    low ≤ integerOf low high word ∧ integerOf low high word ≤ high := by
  obtain ⟨span, hspan⟩ := Int.eq_ofNat_of_zero_le (show 0 ≤ high - low + 1 by omega)
  have hpart : word.toNat * span / 4294967296 < span :=
    Nat.div_lt_of_lt_mul (Nat.mul_lt_mul_of_pos_right word.toNat_lt (by omega))
  rw [(integerOf_eq_iff hspan).mpr rfl]
  omega

/-- **A whole number is drawn within its bounds.** -/
theorem integer_always {low high : Int} (h : low ≤ high) (hnear : high - low < 2097152) :
    (integer low high).Always fun k => low ≤ k ∧ k ≤ high := by
  intro rng
  rw [run_integer h (by omega)]
  exact integerOf_bounds h rng.next.1

end Draw
end Arbor
