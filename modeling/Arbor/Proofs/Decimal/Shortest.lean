import Arbor.Proofs.Decimal.Nearest
import Mathlib.Tactic.FieldSimp

/-!
# The shortest decimal rounds to its number

A window stands for the reals that round to a number, seen from a grid of decimals (`Window.holds_iff_near`). A point
that is found lies in the window (`Window.point?_holds`), and one is found as soon as the grid is finer than half of the
window (`Window.point?_isSome`). Thirty grids are enough for all doubles, and so for all singles (`Window.fine_last`).
-/

namespace Arbor

namespace Window

variable {w : Window} {tie : Tie} {p : Nat}

/-- The number lies inside its window. -/
structure Proper (w : Window) : Prop where
  low : w.low < w.value
  high : w.value < w.high
  unit : 0 < w.unit

/-- A point of the grid rounds to the number. -/
def Holds (w : Window) (p : Nat) : Prop :=
  (w.low < p * w.unit ∨ (w.closed ∧ w.low = p * w.unit)) ∧ (p * w.unit < w.high ∨ (w.closed ∧ p * w.unit = w.high))

/-! ## One grid -/

theorem point?_cases (h : w.point? tie = some p) :
    (p = w.value / w.unit ∧ (w.low < p * w.unit ∨ (w.closed ∧ w.low = p * w.unit))) ∨
      (p = w.value / w.unit + 1 ∧ (p * w.unit < w.high ∨ (w.closed ∧ p * w.unit = w.high))) := by
  simp only [point?] at h
  split at h
  case isTrue hboth =>
    obtain ⟨hbelow, habove⟩ := hboth
    split at h
    · obtain rfl := Option.some.inj h
      exact Or.inl ⟨rfl, hbelow⟩
    split at h
    · obtain rfl := Option.some.inj h
      exact Or.inr ⟨rfl, habove⟩
    cases tie with
    | up =>
      obtain rfl := Option.some.inj h
      exact Or.inr ⟨rfl, habove⟩
    | even =>
      obtain rfl := Option.some.inj h
      split
      · exact Or.inl ⟨rfl, hbelow⟩
      · exact Or.inr ⟨rfl, habove⟩
  case isFalse =>
    split at h
    case isTrue hbelow =>
      obtain rfl := Option.some.inj h
      exact Or.inl ⟨rfl, hbelow⟩
    case isFalse =>
      split at h
      case isTrue habove =>
        obtain rfl := Option.some.inj h
        exact Or.inr ⟨rfl, habove⟩
      case isFalse => cases h

theorem Proper.between (hw : w.Proper) :
    w.value / w.unit * w.unit ≤ w.value ∧ w.value < (w.value / w.unit + 1) * w.unit :=
  ⟨Nat.div_mul_le_self _ _, by rw [Nat.mul_comm]; exact Nat.lt_mul_div_succ _ hw.unit⟩

/-- **A point that is found rounds to the number.** -/
theorem point?_holds (hw : w.Proper) (h : w.point? tie = some p) : w.Holds p := by
  obtain ⟨hbelow, habove⟩ := hw.between
  rcases point?_cases h with ⟨rfl, hin⟩ | ⟨rfl, hin⟩
  · exact ⟨hin, Or.inl (hbelow.trans_lt hw.high)⟩
  · exact ⟨Or.inl (hw.low.trans habove), hin⟩

/-- A point is found on a grid finer than the lower half of the window. -/
theorem point?_isSome (hw : w.Proper) (hroom : w.unit ≤ w.value - w.low) : ∃ p, w.point? tie = some p := by
  have hbelow : w.low < w.value / w.unit * w.unit := by
    have hlow := hw.low
    have hnext := hw.between.2
    rw [Nat.succ_mul] at hnext
    omega
  simp only [point?]
  split
  · split
    · exact ⟨_, rfl⟩
    split
    · exact ⟨_, rfl⟩
    cases tie <;> exact ⟨_, rfl⟩
  · exact ⟨_, if_pos (Or.inl hbelow)⟩

/-! ## One grid after the other -/

theorem Proper.finer (hw : w.Proper) : w.finer.Proper where
  low := Nat.mul_lt_mul_of_pos_right hw.low (by decide)
  high := Nat.mul_lt_mul_of_pos_right hw.high (by decide)
  unit := hw.unit

theorem iterate_finer (w : Window) (j : Nat) :
    finer^[j] w = ⟨w.low * 10 ^ j, w.value * 10 ^ j, w.high * 10 ^ j, w.unit, w.closed⟩ := by
  induction j with
  | zero => simp
  | succ j ih =>
    rw [Function.iterate_succ_apply', ih]
    simp only [finer, Nat.pow_succ, Nat.mul_assoc]

theorem proper_iterate (hw : w.Proper) (j : Nat) : (finer^[j] w).Proper := by
  induction j with
  | zero => exact hw
  | succ j ih =>
    rw [Function.iterate_succ_apply']
    exact ih.finer

/-- **The search ends at the first grid that has a point,** if one of its grids is fine enough. -/
theorem search_first (hw : w.Proper) {tries : Nat} {k : Int}
    (hroom : ∃ j < tries, w.unit ≤ (w.value - w.low) * 10 ^ j) :
    ∃ (j p : Nat), w.search tie tries k = ⟨p, k - j⟩ ∧ (finer^[j] w).point? tie = some p ∧
      ∀ i < j, (finer^[i] w).point? tie = none := by
  induction tries generalizing w k with
  | zero =>
    obtain ⟨j, hj, -⟩ := hroom
    exact absurd hj (Nat.not_lt_zero j)
  | succ tries ih =>
    rw [search]
    cases hpoint : w.point? tie with
    | some p => exact ⟨0, p, by simp, hpoint, fun i hi => absurd hi (Nat.not_lt_zero i)⟩
    | none =>
      obtain ⟨j, hj, hunit⟩ := hroom
      cases j with
      | zero =>
        obtain ⟨p, hp⟩ : ∃ p, w.point? tie = some p := point?_isSome hw (by simpa using hunit)
        rw [hp] at hpoint
        cases hpoint
      | succ j =>
        have hfiner : w.finer.unit ≤ (w.finer.value - w.finer.low) * 10 ^ j := by
          rw [Nat.pow_succ', ← Nat.mul_assoc, Nat.sub_mul] at hunit
          exact hunit
        obtain ⟨i, p, hsearch, hfound, hbefore⟩ := @ih w.finer hw.finer (k - 1) ⟨j, Nat.lt_of_succ_lt_succ hj, hfiner⟩
        refine ⟨i + 1, p, ?_, hfound, fun l hl => ?_⟩
        · rw [hsearch, Nat.cast_succ, sub_sub, add_comm (1 : Int)]
        · cases l with
          | zero => exact hpoint
          | succ l => exact hbefore l (Nat.lt_of_succ_lt_succ hl)

/-! ## Grids and reals -/

/-- How many steps of its unit a window has for a quarter of the last binary digit. -/
def quarter (exponent k : Int) : Nat := 10 ^ (-k).toNat * 2 ^ (exponent - 2).toNat

/-- The unit of a window. -/
def unitOf (exponent k : Int) : Nat := 10 ^ k.toNat * 2 ^ (2 - exponent).toNat

section Reals

variable (mantissa : Nat) (exponent k : Int) (narrow : Bool)

theorem ofBinary_eq : ofBinary mantissa exponent narrow k =
    ⟨(4 * mantissa - if narrow then 1 else 2) * quarter exponent k, 4 * mantissa * quarter exponent k,
      (4 * mantissa + 2) * quarter exponent k, unitOf exponent k, mantissa % 2 = 0⟩ := by
  simp only [ofBinary, quarter, unitOf, Nat.shiftLeft_eq, Nat.pow_eq]

theorem quarter_pos : 0 < quarter exponent k := by
  unfold quarter
  positivity

theorem unitOf_pos : 0 < unitOf exponent k := by
  unfold unitOf
  positivity

theorem zpow_mul_toNat {a : ℚ} (ha : a ≠ 0) (n : Int) : a ^ n * a ^ (-n).toNat = a ^ n.toNat := by
  rw [← zpow_natCast, ← zpow_natCast, ← zpow_add₀ ha]
  congr 1
  omega

theorem unitOf_mul : (unitOf exponent k : ℚ) * 2 ^ (exponent - 2) = quarter exponent k * 10 ^ k := by
  have hten := zpow_mul_toNat (a := 10) (by norm_num) k
  have htwo := zpow_mul_toNat (a := 2) (by norm_num) (exponent - 2)
  rw [neg_sub] at htwo
  unfold unitOf quarter
  push_cast
  calc (10 : ℚ) ^ k.toNat * 2 ^ (2 - exponent).toNat * 2 ^ (exponent - 2)
      = 10 ^ k.toNat * (2 ^ (exponent - 2) * 2 ^ (2 - exponent).toNat) := by ring
    _ = 10 ^ k.toNat * 2 ^ (exponent - 2).toNat := by rw [htwo]
    _ = 10 ^ k * 10 ^ (-k).toNat * 2 ^ (exponent - 2).toNat := by rw [hten]
    _ = 10 ^ (-k).toNat * 2 ^ (exponent - 2).toNat * 10 ^ k := by ring

/-- The steps of a window are proportional to the numbers they stand for. -/
theorem grid_scale (j : Nat) : ∃ c : ℚ, 0 < c ∧ ((quarter exponent k * 10 ^ j : ℕ) : ℚ) * c = 2 ^ (exponent - 2) ∧
    (unitOf exponent k : ℚ) * c = 10 ^ (k - j) := by
  have hunit : (0 : ℚ) < unitOf exponent k := by exact_mod_cast unitOf_pos exponent k
  refine ⟨10 ^ (k - j) / unitOf exponent k, by positivity, ?_, mul_div_cancel₀ _ hunit.ne'⟩
  rw [← mul_div_assoc, div_eq_iff hunit.ne', mul_comm (2 ^ (exponent - 2) : ℚ), unitOf_mul, zpow_sub₀ (by norm_num),
    zpow_natCast]
  push_cast
  field_simp

/-- Comparing with a point of the grid is comparing with a decimal. -/
theorem compare_iff (a p j : Nat) :
    (a * quarter exponent k * 10 ^ j < p * unitOf exponent k ↔ (a : ℚ) * 2 ^ (exponent - 2) < p * 10 ^ (k - j)) ∧
      (p * unitOf exponent k < a * quarter exponent k * 10 ^ j ↔ p * 10 ^ (k - j) < (a : ℚ) * 2 ^ (exponent - 2)) ∧
      (a * quarter exponent k * 10 ^ j = p * unitOf exponent k ↔ (a : ℚ) * 2 ^ (exponent - 2) = p * 10 ^ (k - j)) := by
  obtain ⟨c, hc, hquarter, hunit⟩ := grid_scale exponent k j
  have hleft : (a : ℚ) * 2 ^ (exponent - 2) = ((a * quarter exponent k * 10 ^ j : ℕ) : ℚ) * c := by
    rw [← hquarter]
    push_cast
    ring
  have hright : (p : ℚ) * 10 ^ (k - j) = ((p * unitOf exponent k : ℕ) : ℚ) * c := by
    rw [← hunit]
    push_cast
    ring
  rw [hleft, hright]
  refine ⟨?_, ?_, ?_⟩
  · rw [mul_lt_mul_iff_left₀ hc, Nat.cast_lt]
  · rw [mul_lt_mul_iff_left₀ hc, Nat.cast_lt]
  · rw [mul_left_inj' hc.ne', Nat.cast_inj]

/-- The window of a number, on a grid of its own or a finer one, holds the decimals that round to it. -/
theorem holds_iff_near (hpos : 0 < mantissa) (p j : Nat) :
    (finer^[j] (ofBinary mantissa exponent narrow k)).Holds p ↔
      Binary.Near mantissa exponent narrow (p * 10 ^ (k - j)) := by
  have hlow : ((4 * mantissa - (if narrow then 1 else 2) : ℕ) : ℚ) = 4 * mantissa - (if narrow then 1 else 2) := by
    rw [Nat.cast_sub (by split <;> omega)]
    push_cast
    split <;> rfl
  obtain ⟨hlt, -, heq⟩ := compare_iff exponent k (4 * mantissa - if narrow then 1 else 2) p j
  obtain ⟨-, hgt, heq'⟩ := compare_iff exponent k (4 * mantissa + 2) p j
  rw [hlow] at hlt heq
  push_cast at hgt heq'
  rw [eq_comm, eq_comm (b := (p : ℚ) * 10 ^ (k - j))] at heq'
  simp only [iterate_finer, ofBinary_eq, Holds, Binary.Near, decide_eq_true_eq, hlt, heq, hgt, heq']

theorem fine_iff (j : Nat) :
    unitOf exponent k ≤ quarter exponent k * 10 ^ j ↔ (10 : ℚ) ^ (k - j) ≤ 2 ^ (exponent - 2) := by
  have h := (compare_iff exponent k 1 1 j).1
  rw [Nat.one_mul, Nat.one_mul, Nat.cast_one, one_mul, one_mul] at h
  rw [← not_lt, ← not_lt, h]

end Reals

/-- A power of ten is below a power of two if their exponents are as one to three and a third. -/
theorem ten_zpow_le_of_nonneg {n x : Int} (hx : 0 ≤ x) (h : 10 * n ≤ 3 * x) : (10 : ℚ) ^ n ≤ 2 ^ x := by
  refine le_of_pow_le_pow_left₀ (n := 10) (by decide) (by positivity) ?_
  calc ((10 : ℚ) ^ n) ^ 10 = 10 ^ (n * 10) := by rw [zpow_mul]; norm_cast
    _ ≤ 10 ^ (3 * x) := zpow_le_zpow_right₀ (by norm_num) (by omega)
    _ = (10 ^ 3) ^ x := by rw [zpow_mul]; norm_cast
    _ ≤ (2 ^ 10) ^ x := zpow_le_zpow_left₀ hx (by norm_num) (by norm_num)
    _ = (2 ^ x) ^ 10 := by rw [← zpow_natCast, ← zpow_natCast, ← zpow_mul, ← zpow_mul, mul_comm]

theorem ten_zpow_le_of_nonpos {n x : Int} (hx : x ≤ 0) (h : 100 * n ≤ 31 * x) : (10 : ℚ) ^ n ≤ 2 ^ x := by
  obtain ⟨y, rfl⟩ := Int.exists_eq_neg_ofNat hx
  refine le_of_pow_le_pow_left₀ (n := 100) (by decide) (by positivity) ?_
  calc ((10 : ℚ) ^ n) ^ 100 = 10 ^ (n * 100) := by rw [zpow_mul]; norm_cast
    _ ≤ 10 ^ (31 * -(y : Int)) := zpow_le_zpow_right₀ (by norm_num) (by omega)
    _ = ((10 ^ 31) ^ y)⁻¹ := by rw [zpow_mul, zpow_neg, zpow_natCast]; norm_cast
    _ ≤ ((2 ^ 100) ^ y)⁻¹ := inv_anti₀ (by positivity) (pow_le_pow_left₀ (by norm_num) (by norm_num) y)
    _ = (2 ^ (-(y : Int))) ^ 100 := by rw [zpow_neg, zpow_natCast, inv_pow, ← pow_mul, ← pow_mul, mul_comm]

/-- **Thirty grids are enough:** the last of them is finer than a quarter of the last digit of any double. -/
theorem fine_last {bits : Nat} {exponent : Int} (hbits : bits ≤ 53) (hlow : -1074 ≤ exponent) (hhigh : exponent ≤ 971) :
    unitOf exponent ((bits + exponent) * 30103 / 100000 + 1) ≤
      quarter exponent ((bits + exponent) * 30103 / 100000 + 1) * 10 ^ 29 := by
  rw [fine_iff]
  -- 0.30103 is the decimal logarithm of two; 3/10 and 31/100 are near enough for these exponents and twelve digits to spare
  rcases Int.le_total 2 exponent with h | h
  · exact ten_zpow_le_of_nonneg (by omega) (by omega)
  · exact ten_zpow_le_of_nonpos (by omega) (by omega)

theorem proper_ofBinary {mantissa : Nat} (hpos : 0 < mantissa) (exponent k : Int) (narrow : Bool) :
    (ofBinary mantissa exponent narrow k).Proper := by
  rw [ofBinary_eq]
  have hquarter := quarter_pos exponent k
  refine ⟨Nat.mul_lt_mul_of_pos_right ?_ hquarter, Nat.mul_lt_mul_of_pos_right ?_ hquarter, unitOf_pos exponent k⟩
  · split <;> omega
  · omega

end Window

/-- **The shortest decimal is on the first grid with a point:** none of the grids before it has one. -/
theorem Binary.shortest_first (tie : Tie) {mantissa : Nat} {exponent : Int} (narrow : Bool) (hpos : 0 < mantissa)
    (hmantissa : mantissa < 2 ^ 53) (hlow : -1074 ≤ exponent) (hhigh : exponent ≤ 971) :
    let k := ((mantissa.log2 + 1 : Nat) + exponent) * 30103 / 100000 + 1
    let w := Window.ofBinary mantissa exponent narrow k
    ∃ (j p : Nat), shortest tie mantissa exponent narrow = ⟨p, k - j⟩ ∧ (Window.finer^[j] w).point? tie = some p ∧
      ∀ i < j, (Window.finer^[i] w).point? tie = none := by
  intro k w
  have hbits : mantissa.log2 + 1 ≤ 53 := (Nat.log2_lt hpos.ne').mpr hmantissa
  have hfine : Window.unitOf exponent k ≤ Window.quarter exponent k * 10 ^ 29 := Window.fine_last hbits hlow hhigh
  have hroom : w.unit ≤ (w.value - w.low) * 10 ^ 29 := by
    simp only [w, Window.ofBinary_eq, ← Nat.sub_mul]
    refine hfine.trans (Nat.mul_le_mul_right _ (Nat.le_mul_of_pos_left _ ?_))
    split <;> omega
  have hshortest : shortest tie mantissa exponent narrow = w.search tie 30 k := by
    rw [shortest]
    rfl
  rw [hshortest]
  exact Window.search_first (Window.proper_ofBinary hpos exponent k narrow) ⟨29, by decide, hroom⟩

/-- **The shortest decimal rounds to its number.** -/
theorem Binary.shortest_near (tie : Tie) {mantissa : Nat} {exponent : Int} (narrow : Bool) (hpos : 0 < mantissa)
    (hmantissa : mantissa < 2 ^ 53) (hlow : -1074 ≤ exponent) (hhigh : exponent ≤ 971) :
    Near mantissa exponent narrow
      ((shortest tie mantissa exponent narrow).digits * 10 ^ (shortest tie mantissa exponent narrow).exponent) := by
  obtain ⟨j, p, hshortest, hfound, -⟩ := shortest_first tie narrow hpos hmantissa hlow hhigh
  rw [hshortest]
  exact (Window.holds_iff_near mantissa exponent _ narrow hpos p j).mp
    (Window.point?_holds (Window.proper_iterate (Window.proper_ofBinary hpos exponent _ narrow) j) hfound)

end Arbor
