import Arbor.Proofs.Exact
import Arbor.Proofs.Growth.Choice
import Mathlib.Algebra.BigOperators.Ring.List
import Mathlib.Algebra.Order.BigOperators.Group.List
import Mathlib.Algebra.Order.Ring.Rat
import Mathlib.Tactic.NormNum

/-!
# Weighted choices

A weighted choice takes one draw for two items or more, and none otherwise (`Draw.rng_weighted`). Over exact numbers the
items divide the range of the draw in proportion to their odds: a drawn fraction falls on exactly one item
(`Draw.exists_fallsOn`, `Draw.FallsOn.unique`), and this is the item that is chosen (`Draw.reached_eq`). So the last item
never stands in for a missing one, a larger draw never goes back to an earlier item (`Draw.FallsOn.le`), and only the
ratio of odds counts (`Draw.fallsOn_mul_iff`).
-/

namespace Arbor
namespace Draw

open Scalar

variable {β : Type}

/-- **A choice among two items or more takes one word,** any other none. -/
theorem rng_weighted {α : Type} [Scalar α] (odds : β → α) (items : List β) (rng : Rng) :
    ((weighted odds items).run rng).2 = rng.skip (if items.length < 2 then 0 else 1) := by
  match items with
  | [] => rfl
  | [x] => rfl
  | x :: y :: rest => rfl

/-! ## Odds before an item -/

variable {K : Type} [Field K]

/-- The odds of the first `i` items together. -/
def oddsBefore (odds : β → K) (items : List β) (i : Nat) : K := ((items.take i).map odds).sum

/-- The fraction `r` of all odds is beyond the odds before item `i`, and not beyond its own. -/
def FallsOn [LinearOrder K] (odds : β → K) (items : List β) (r : K) (i : Nat) : Prop :=
  oddsBefore odds items i ≤ r * (items.map odds).sum ∧ r * (items.map odds).sum < oddsBefore odds items (i + 1)

variable {odds : β → K} {items : List β}

theorem oddsBefore_zero (odds : β → K) (items : List β) : oddsBefore odds items 0 = 0 := rfl

theorem oddsBefore_length (odds : β → K) (items : List β) : oddsBefore odds items items.length = (items.map odds).sum := by
  rw [oddsBefore, List.take_length]

theorem oddsBefore_cons_succ (odds : β → K) (x : β) (items : List β) (i : Nat) :
    oddsBefore odds (x :: items) (i + 1) = odds x + oddsBefore odds items i := by
  rw [oddsBefore, List.take_succ_cons, List.map_cons, List.sum_cons]
  rfl

theorem oddsBefore_mul (c : K) (odds : β → K) (items : List β) (i : Nat) :
    oddsBefore (fun x => c * odds x) items i = c * oddsBefore odds items i := List.sum_map_mul_left _ _ _

variable [LinearOrder K] [IsStrictOrderedRing K]

theorem oddsBefore_le (hpos : ∀ x ∈ items, 0 < odds x) {i j : Nat} (h : i ≤ j) :
    oddsBefore odds items i ≤ oddsBefore odds items j := by
  refine List.Sublist.sum_le_sum ((List.take_sublist_take_left h).map odds) fun y hy => ?_
  obtain ⟨x, hx, rfl⟩ := List.mem_map.mp hy
  exact le_of_lt (hpos x (List.mem_of_mem_take hx))

/-! ## The item a fraction falls on -/

/-- A larger fraction does not fall on an earlier item. -/
theorem FallsOn.le (hpos : ∀ x ∈ items, 0 < odds x) {r r' : K} {i j : Nat} (hr : r ≤ r') (hi : FallsOn odds items r i)
    (hj : FallsOn odds items r' j) : i ≤ j := by
  by_contra hlt
  have htotal : 0 ≤ (items.map odds).sum := by
    have := oddsBefore_le hpos (Nat.zero_le items.length)
    rwa [oddsBefore_zero, oddsBefore_length] at this
  have hback : oddsBefore odds items (j + 1) ≤ oddsBefore odds items i := oddsBefore_le hpos (by omega)
  have hscaled : r * (items.map odds).sum ≤ r' * (items.map odds).sum := mul_le_mul_of_nonneg_right hr htotal
  exact absurd hj.2 (not_lt.mpr ((hback.trans hi.1).trans hscaled))

/-- **A fraction falls on one item only.** -/
theorem FallsOn.unique (hpos : ∀ x ∈ items, 0 < odds x) {r : K} {i j : Nat} (hi : FallsOn odds items r i)
    (hj : FallsOn odds items r j) : i = j := le_antisymm (hi.le hpos le_rfl hj) (hj.le hpos le_rfl hi)

omit [IsStrictOrderedRing K] in
/-- The search ends at the first item whose odds, with those before it, exceed the threshold, if there is one. -/
theorem reached_eq (f : Functions K) {threshold : K} : ∀ {items : List β} {total : K} (last : β),
    total ≤ threshold → threshold < total + (items.map odds).sum → ∃ (i : Nat) (hi : i < items.length),
      total + oddsBefore odds items i ≤ threshold ∧ threshold < total + oddsBefore odds items (i + 1) ∧
      @reached K (ofField f) β odds threshold total last items = items[i]
  | [], total, last, hle, hlt => by
    rw [List.map_nil, List.sum_nil, add_zero] at hlt
    exact absurd hlt (not_lt.mpr hle)
  | x :: items, total, last, hle, hlt => by
    by_cases hx : threshold < total + odds x
    · refine ⟨0, Nat.succ_pos _, ?_, ?_, if_pos hx⟩
      · rwa [oddsBefore_zero, add_zero]
      · rwa [oddsBefore_cons_succ, oddsBefore_zero, add_zero]
    · rw [List.map_cons, List.sum_cons, ← add_assoc] at hlt
      obtain ⟨i, hi, hbefore, hbeyond, hreached⟩ := reached_eq f x (not_lt.mp hx) hlt
      refine ⟨i + 1, Nat.succ_lt_succ hi, ?_, ?_, (if_neg hx).trans hreached⟩
      · rwa [oddsBefore_cons_succ, ← add_assoc]
      · rwa [oddsBefore_cons_succ, ← add_assoc]

/-! ## Drawn fractions -/

omit [IsStrictOrderedRing K] in
/-- A drawn fraction, exactly. -/
theorem fraction_ofField (f : Functions K) (word : UInt32) :
    @fraction K (ofField f) word = (word.toNat : K) / 4294967296 := by
  show (word.toNat : K) / ((4294967296 : ℕ) : K) = _
  rw [Nat.cast_ofNat]

theorem fraction_bounds (word : UInt32) : 0 ≤ (word.toNat : K) / 4294967296 ∧ (word.toNat : K) / 4294967296 < 1 := by
  have hword : (word.toNat : K) < 4294967296 := by exact_mod_cast word.toNat_lt
  refine ⟨by positivity, ?_⟩
  rw [div_lt_one (by positivity)]
  exact hword

/-- **A choice falls where its draw falls.** -/
theorem weighted_eq (f : Functions K) (hlength : 2 ≤ items.length) (hpos : ∀ x ∈ items, 0 < odds x) (rng : Rng) :
    ∃ (i : Nat) (hi : i < items.length), FallsOn odds items (rng.next.1.toNat / 4294967296) i ∧
      (@weighted K (ofField f) β odds items).run rng = (some items[i], rng.next.2) := by
  obtain ⟨hnonneg, hone⟩ := fraction_bounds (K := K) rng.next.1
  match items, hlength with
  | x :: y :: rest, _ =>
    have htotal : 0 < ((x :: y :: rest).map odds).sum := List.sum_pos _ (by simpa using hpos) (by simp)
    obtain ⟨i, hi, hbefore, hbeyond, hreached⟩ := reached_eq f x
      (mul_nonneg hnonneg htotal.le) (show _ < 0 + ((x :: y :: rest).map odds).sum by
        rw [zero_add]
        exact mul_lt_of_lt_one_left htotal hone)
    rw [zero_add] at hbefore hbeyond
    refine ⟨i, hi, ⟨hbefore, hbeyond⟩, ?_⟩
    have hrun : (@weighted K (ofField f) β odds (x :: y :: rest)).run rng =
        (some (@reached K (ofField f) β odds (@fraction K (ofField f) rng.next.1 *
          @sum K (ofField f) ((x :: y :: rest).map odds)) ((0 : ℕ) : K) x (x :: y :: rest)), rng.next.2) := rfl
    rw [hrun, fraction_ofField, sum_ofField, Nat.cast_zero, hreached]

theorem fallsOn_mul_iff {c : K} (hc : 0 < c) {r : K} {i : Nat} :
    FallsOn (fun x => c * odds x) items r i ↔ FallsOn odds items r i := by
  have htotal : (items.map fun x => c * odds x).sum = c * (items.map odds).sum := List.sum_map_mul_left _ _ _
  rw [FallsOn, FallsOn, oddsBefore_mul, oddsBefore_mul, htotal, mul_left_comm, mul_le_mul_iff_right₀ hc,
    mul_lt_mul_iff_right₀ hc]

/-- **Only the ratio of odds counts.** -/
theorem weighted_mul (f : Functions K) (hpos : ∀ x ∈ items, 0 < odds x) {c : K} (hc : 0 < c) :
    @weighted K (ofField f) β (fun x => c * odds x) items = @weighted K (ofField f) β odds items := by
  funext rng
  match items with
  | [] => rfl
  | [x] => rfl
  | x :: y :: rest =>
    have hlength : 2 ≤ (x :: y :: rest).length := by simp
    obtain ⟨i, hi, hfalls, hrun⟩ := weighted_eq f hlength hpos rng
    obtain ⟨j, hj, hfalls', hrun'⟩ := weighted_eq f hlength (fun z hz => mul_pos hc (hpos z hz)) rng
    obtain rfl : j = i := ((fallsOn_mul_iff hc).mp hfalls').unique hpos hfalls
    exact hrun'.trans hrun.symm

/-- **Weighted choices are exact.** From any numbers, none is chosen only if there is no item, what is chosen is one of
them, and one word is drawn for two items or more and none otherwise. Over exact numbers, with two items or more and all
odds above zero, the draw is a fraction `r` in `[0, 1)`; the choice is the one item that `r` of all odds falls on, no
later one is left for a smaller `r`, and a common factor of all odds changes nothing. -/
theorem weighted_exact (f : Functions K) (items : List β) :
    (∀ {α : Type} [Scalar α] (odds : β → α) (rng : Rng),
      let out := (weighted odds items).run rng
      (out.1 = none ↔ items = []) ∧ (∀ x, out.1 = some x → x ∈ items) ∧
        out.2 = rng.skip (if items.length < 2 then 0 else 1)) ∧
    ∀ odds : β → K, 2 ≤ items.length → (∀ x ∈ items, 0 < odds x) →
      (∀ rng : Rng,
        let r : K := rng.next.1.toNat / 4294967296
        @fraction K (ofField f) rng.next.1 = r ∧ 0 ≤ r ∧ r < 1 ∧ ∃ (i : Nat) (hi : i < items.length),
          FallsOn odds items r i ∧ (∀ j, FallsOn odds items r j → j = i) ∧
          (@weighted K (ofField f) β odds items).run rng = (some items[i], rng.next.2)) ∧
      (∀ r r' i j, r ≤ r' → FallsOn odds items r i → FallsOn odds items r' j → i ≤ j) ∧
      ∀ c, 0 < c → @weighted K (ofField f) β (fun x => c * odds x) items = @weighted K (ofField f) β odds items := by
  refine ⟨fun odds rng => ?_, fun odds hlength hpos => ⟨fun rng => ?_, fun r r' i j hr => FallsOn.le hpos hr, fun c hc =>
    weighted_mul f hpos hc⟩⟩
  · intro out
    refine ⟨?_, ?_, rng_weighted odds items rng⟩
    · rcases weighted_cases odds items rng with ⟨hnil, hrun⟩ | ⟨x, hx, rng', hrun⟩
      · exact iff_of_true (congrArg Prod.fst hrun) hnil
      · refine iff_of_false (fun hnone => ?_) (List.ne_nil_of_mem hx)
        cases (congrArg Prod.fst hrun).symm.trans hnone
    · intro x hsome
      rcases weighted_cases odds items rng with ⟨hnil, hrun⟩ | ⟨y, hy, rng', hrun⟩
      · cases (congrArg Prod.fst hrun).symm.trans hsome
      · obtain rfl : y = x := Option.some.inj ((congrArg Prod.fst hrun).symm.trans hsome)
        exact hy
  · intro r
    obtain ⟨hnonneg, hone⟩ := fraction_bounds (K := K) rng.next.1
    obtain ⟨i, hi, hfalls, hrun⟩ := weighted_eq f hlength hpos rng
    exact ⟨fraction_ofField f _, hnonneg, hone, i, hi, hfalls, fun j hj => hj.unique hpos hfalls, hrun⟩

/-- The odds 1, 2 and 3 divide the range at a sixth and at a half; the first draw from this seed falls between. -/
theorem weighted_exact_one_two_three :
    let rng := Rng.ofSeed "willow"
    (@weighted ℚ (ofField ⟨id, id, id, 1, 0⟩) ℕ (fun n => n) [1, 2, 3]).run rng = (some 2, rng.next.2) := by
  intro rng
  obtain ⟨-, -, -, i, hi, -, hunique, hrun⟩ := ((weighted_exact ⟨id, id, id, 1, 0⟩ [1, 2, 3]).2 (fun n : ℕ => (n : ℚ))
    (by decide) (by simp)).1 rng
  have hword : rng.next.1.toNat = 1343766509 := by decide +kernel
  obtain rfl : 1 = i := hunique 1 (by
    rw [hword]
    norm_num [FallsOn, oddsBefore])
  exact hrun

end Draw
end Arbor
