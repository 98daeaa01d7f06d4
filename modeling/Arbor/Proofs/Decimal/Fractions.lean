import Mathlib.Data.Rat.Cast.Order
import Mathlib.Tactic.Linarith
import Mathlib.Tactic.Positivity
import Mathlib.Tactic.Ring

/-!
# Fractions with small denominators

Between two fractions `p / q` and `p' / q'` with `p' * q - p * q' = 1` there is no fraction whose denominator is below
`q + q'` (`Fence.outside`). Walking from one mediant to the next, such a fence is drawn around a ratio as closely as a
limit of the denominators permits (`Fence.walk`). Then all other fractions keep their distance from the ratio
(`Fence.apart_or_end`).
-/

namespace Arbor

/-! ## Distances -/

/-- One number differs from another by a little more than two parts in `2 ^ 53` of that one at most. -/
def Close (r q : ℚ) : Prop := |r - q| ≤ 9 / 4 * (q / 2 ^ 53)

/-- The fraction `n / d` and the ratio `b / a` differ by more than nine parts in `2 ^ 55`. -/
def Apart (n d a b : Nat) : Prop := 9 * (n * a) < 2 ^ 55 * (d * b - n * a) ∨ 9 * (n * a) < 2 ^ 55 * (n * a - d * b)

instance (n d a b : Nat) : Decidable (Apart n d a b) := inferInstanceAs (Decidable (_ ∨ _))

theorem cast_sub_le_abs (x y : Nat) : ((x - y : ℕ) : ℚ) ≤ |(x : ℚ) - y| := by
  rcases Nat.le_total y x with h | h
  · rw [Nat.cast_sub h]
    exact le_abs_self _
  · rw [Nat.sub_eq_zero_of_le h, Nat.cast_zero]
    exact abs_nonneg _

/-- Products that are apart are not close, on whatever scale. -/
theorem Apart.not_close {n d a b : Nat} (h : Apart n d a b) {c : ℚ} (hc : 0 < c) :
    ¬Close (c * (d * b : ℕ)) (c * (n * a : ℕ)) := by
  rw [Close, ← mul_sub, abs_mul, abs_of_pos hc, not_le]
  have hdistance : 9 * ((n * a : ℕ) : ℚ) < 2 ^ 55 * |((d * b : ℕ) : ℚ) - (n * a : ℕ)| := by
    rcases h with h | h
    · exact (by exact_mod_cast h : 9 * ((n * a : ℕ) : ℚ) < 2 ^ 55 * (d * b - n * a : ℕ)).trans_le
        (mul_le_mul_of_nonneg_left (cast_sub_le_abs _ _) (by norm_num))
    · rw [abs_sub_comm]
      exact (by exact_mod_cast h : 9 * ((n * a : ℕ) : ℚ) < 2 ^ 55 * (n * a - d * b : ℕ)).trans_le
        (mul_le_mul_of_nonneg_left (cast_sub_le_abs _ _) (by norm_num))
  calc 9 / 4 * (c * (n * a : ℕ) / 2 ^ 53) = c * (9 * (n * a : ℕ)) / 2 ^ 55 := by ring
    _ < c * (2 ^ 55 * |((d * b : ℕ) : ℚ) - (n * a : ℕ)|) / 2 ^ 55 :=
      div_lt_div_of_pos_right (mul_lt_mul_of_pos_left hdistance hc) (by norm_num)
    _ = c * |((d * b : ℕ) : ℚ) - (n * a : ℕ)| := by ring

/-- If the ratio itself has a small denominator, other fractions with small denominators are apart from it. -/
theorem apart_of_ne {n d a b : Nat} (hd : d ≤ 2 ^ 25) (hb : b ≤ 2 ^ 26) (hne : n * a ≠ d * b) : Apart n d a b := by
  have hbound : d * b ≤ 2 ^ 25 * 2 ^ 26 := Nat.mul_le_mul hd hb
  rcases Nat.lt_or_gt_of_ne hne with hlt | hgt
  · exact Or.inl (by omega)
  · exact Or.inr (by omega)

/-! ## Fences -/

/-- Two fractions, the lower one first. -/
structure Fence where
  p : Nat
  q : Nat
  p' : Nat
  q' : Nat
deriving DecidableEq, Repr

namespace Fence

/-- The two fractions are next to each other. -/
def Tight (f : Fence) : Prop := f.p' * f.q = f.p * f.q' + 1

instance (f : Fence) : Decidable f.Tight := Nat.decEq _ _

variable {f : Fence} {n d a b : Nat}

/-- **Between neighbours there are large denominators only.** -/
theorem outside (hf : f.Tight) (hd : d < f.q + f.q') : n * f.q ≤ f.p * d ∨ f.p' * d ≤ n * f.q' := by
  by_contra hbetween
  rw [not_or, not_le, not_le] at hbetween
  obtain ⟨hlow, hhigh⟩ := hbetween
  have hlow' : f.q' * (f.p * d + 1) ≤ f.q' * (n * f.q) := Nat.mul_le_mul_left _ hlow
  have hhigh' : f.q * (n * f.q' + 1) ≤ f.q * (f.p' * d) := Nat.mul_le_mul_left _ hhigh
  have hdet : d * (f.p' * f.q) = d * (f.p * f.q' + 1) := congrArg (d * ·) hf
  linarith

/-- Neighbours around the ratio `b / a` whose mediant has a denominator of `limit` or more. -/
def walk (a b limit : Nat) : (fuel : Nat) → Fence → Fence
  | 0, f => f
  | fuel + 1, f =>
    let p := f.p + f.p'
    let q := f.q + f.q'
    if limit ≤ q then f
    else if p * a < q * b then walk a b limit fuel { f with p := p, q := q }
    else walk a b limit fuel { f with p' := p, q' := q }

/-! ## Keeping apart -/

/-- The ratio `b / a` lies inside, and denominators below `limit` do not. -/
structure Encloses (f : Fence) (a b limit : Nat) : Prop where
  tight : f.Tight
  wide : limit ≤ f.q + f.q'
  p_le : f.p ≤ limit
  p'_le : f.p' ≤ limit
  lower : f.p * a < f.q * b
  upper : f.q' * b ≤ f.p' * a

instance (f : Fence) (a b limit : Nat) : Decidable (f.Encloses a b limit) :=
  decidable_of_iff (f.Tight ∧ limit ≤ f.q + f.q' ∧ f.p ≤ limit ∧ f.p' ≤ limit ∧ f.p * a < f.q * b ∧ f.q' * b ≤ f.p' * a)
    ⟨fun ⟨h₁, h₂, h₃, h₄, h₅, h₆⟩ => ⟨h₁, h₂, h₃, h₄, h₅, h₆⟩, fun ⟨h₁, h₂, h₃, h₄, h₅, h₆⟩ => ⟨h₁, h₂, h₃, h₄, h₅, h₆⟩⟩

/-- A fraction below the lower end is as far away as denominators up to `2 ^ 25` can be. -/
theorem apart_below (h : f.Encloses a b (2 ^ 25)) (ha : 0 < a) (hd : d ≤ 2 ^ 25) (hlow : n * f.q < f.p * d) :
    Apart n d a b := by
  have hgap : n * a * f.q + a ≤ d * b * f.q :=
    calc n * a * f.q + a = (n * f.q + 1) * a := by ring
      _ ≤ f.p * d * a := Nat.mul_le_mul_right a hlow
      _ = d * (f.p * a) := by ring
      _ ≤ d * (f.q * b) := Nat.mul_le_mul_left d h.lower.le
      _ = d * b * f.q := by ring
  have hbound : n * a * f.q ≤ 2 ^ 50 * a :=
    calc n * a * f.q = n * f.q * a := by ring
      _ ≤ 2 ^ 25 * 2 ^ 25 * a := Nat.mul_le_mul_right a (hlow.le.trans (Nat.mul_le_mul h.p_le hd))
      _ = 2 ^ 50 * a := by ring
  refine Or.inl (Nat.lt_of_mul_lt_mul_right (a := f.q) ?_)
  rw [Nat.mul_assoc, Nat.mul_assoc (2 ^ 55), Nat.sub_mul]
  omega

theorem apart_above (h : f.Encloses a b (2 ^ 25)) (ha : 0 < a) (hd : d ≤ 2 ^ 25) (hhigh : f.p' * d < n * f.q') :
    Apart n d a b := by
  obtain ⟨z, hz⟩ := Nat.exists_eq_add_of_lt hhigh
  have hgap : d * b * f.q' + (z + 1) * a ≤ n * a * f.q' :=
    calc d * b * f.q' + (z + 1) * a = d * (f.q' * b) + (z + 1) * a := by ring
      _ ≤ d * (f.p' * a) + (z + 1) * a := Nat.add_le_add_right (Nat.mul_le_mul_left d h.upper) _
      _ = (f.p' * d + z + 1) * a := by ring
      _ = n * a * f.q' := by rw [← hz]; ring
  have hbound : n * a * f.q' ≤ 2 ^ 50 * a + (z + 1) * a :=
    calc n * a * f.q' = f.p' * d * a + (z + 1) * a := by rw [show n * a * f.q' = n * f.q' * a by ring, hz]; ring
      _ ≤ 2 ^ 25 * 2 ^ 25 * a + (z + 1) * a :=
        Nat.add_le_add_right (Nat.mul_le_mul_right a (Nat.mul_le_mul h.p'_le hd)) _
      _ = 2 ^ 50 * a + (z + 1) * a := by ring
  have hz' : a ≤ (z + 1) * a := Nat.le_mul_of_pos_left a (Nat.succ_pos z)
  refine Or.inr (Nat.lt_of_mul_lt_mul_right (a := f.q') ?_)
  rw [Nat.mul_assoc, Nat.mul_assoc (2 ^ 55), Nat.sub_mul]
  omega

/-- The lower end itself. -/
theorem apart_low (hd : 0 < d) (hend : 9 * (f.p * a) < 2 ^ 55 * (f.q * b - f.p * a))
    (heq : n * f.q = f.p * d) : Apart n d a b := by
  refine Or.inl (Nat.lt_of_mul_lt_mul_right (a := f.q) ?_)
  calc 9 * (n * a) * f.q = 9 * (n * f.q * a) := by ring
    _ = 9 * (f.p * a) * d := by rw [heq]; ring
    _ < 2 ^ 55 * (f.q * b - f.p * a) * d := Nat.mul_lt_mul_of_pos_right hend hd
    _ = 2 ^ 55 * (f.q * b * d - f.p * d * a) := by rw [Nat.mul_assoc, Nat.sub_mul]; congr 2; ring
    _ = 2 ^ 55 * (d * b - n * a) * f.q := by rw [← heq, Nat.mul_assoc (2 ^ 55), Nat.sub_mul]; congr 2 <;> ring

theorem apart_high (hd : 0 < d) (hend : 9 * (f.p' * a) < 2 ^ 55 * (f.p' * a - f.q' * b))
    (heq : n * f.q' = f.p' * d) : Apart n d a b := by
  refine Or.inr (Nat.lt_of_mul_lt_mul_right (a := f.q') ?_)
  calc 9 * (n * a) * f.q' = 9 * (n * f.q' * a) := by ring
    _ = 9 * (f.p' * a) * d := by rw [heq]; ring
    _ < 2 ^ 55 * (f.p' * a - f.q' * b) * d := Nat.mul_lt_mul_of_pos_right hend hd
    _ = 2 ^ 55 * (f.p' * d * a - f.q' * b * d) := by rw [Nat.mul_assoc, Nat.sub_mul]; congr 2; ring
    _ = 2 ^ 55 * (n * a - d * b) * f.q' := by rw [← heq, Nat.mul_assoc (2 ^ 55), Nat.sub_mul]; congr 2 <;> ring

/-- **A fraction keeps apart from an enclosed ratio** unless it is an end of the fence. -/
theorem apart_or_end (h : f.Encloses a b (2 ^ 25)) (ha : 0 < a) (hd : d < 2 ^ 25) :
    Apart n d a b ∨ n * f.q = f.p * d ∨ n * f.q' = f.p' * d := by
  rcases outside (n := n) h.tight (hd.trans_le h.wide) with hlow | hhigh
  · rcases Nat.lt_or_eq_of_le hlow with hlt | heq
    · exact Or.inl (apart_below h ha hd.le hlt)
    · exact Or.inr (Or.inl heq)
  · rcases Nat.lt_or_eq_of_le hhigh with hlt | heq
    · exact Or.inl (apart_above h ha hd.le hlt)
    · exact Or.inr (Or.inr heq.symm)

end Fence
end Arbor
