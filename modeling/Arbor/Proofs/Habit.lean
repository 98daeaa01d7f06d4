import Arbor.Habit
import Arbor.Proofs.Double.Order
import Arbor.Proofs.Refusal

/-!
# Valid habits

`Habit.Valid` says what the habit of a grammar has to be, and `Habit.Refused` which fault a habit that is not gets. The
checks of a habit decide exactly this (`Habit.check_eq_ok_iff`, `Habit.check_eq_error_iff`).
-/

namespace Arbor

open scoped Scalar

/-! ## Settings -/

namespace Setting

variable {name : String} {x : Float}

theorem nonNegative_eq : nonNegative name x =
    if x.isFinite = true ∧ 0 ≤ x then .ok () else .error (.negative name x) := by
  unfold nonNegative
  by_cases h : x.isFinite = true
  · exact if_congr (and_congr_right fun _ => Double.not_lt_iff h (by decide)) rfl rfl
  · rw [if_neg fun hx => h hx.1, if_neg fun hx => h hx.1]

theorem atMostOne_eq (hx : x.isFinite = true) :
    atMostOne name x = if x ≤ 1 then .ok () else .error (.aboveOne name x) := by
  have hiff := Double.not_lt_iff (x := 1) (by decide) hx
  unfold atMostOne
  by_cases h : x ≤ 1
  · rw [if_pos h]
    exact if_neg (hiff.mpr h)
  · rw [if_neg h]
    exact if_pos (not_not.mp (mt hiff.mp h))

end Setting

/-! ## Habits -/

namespace Habit

/-- The numbers of a habit that may not be negative, in the order in which they are checked. -/
def nonNegatives (h : Habit Float) : List (String × Float) := [
  ("base_length", h.baseLength),
  ("base_radius", h.baseRadius),
  ("length_falloff", h.lengthFalloff),
  ("radius_falloff", h.radiusFalloff),
  ("variability", h.variability)]

/-- What a habit has to be. -/
structure Valid (h : Habit Float) : Prop where
  nonNegative : ∀ setting ∈ h.nonNegatives, setting.2.isFinite = true ∧ 0 ≤ setting.2
  variability : h.variability ≤ 1
  branchAngle : h.branchAngle.isFinite = true

/-- The fault of a habit that is not valid: the first one. -/
inductive Refused (h : Habit Float) : SettingFault Float → Prop where
  | negative {before after : List (String × Float)} {name : String} {x : Float}
    (row : h.nonNegatives = before ++ (name, x) :: after)
    (first : ∀ setting ∈ before, setting.2.isFinite = true ∧ 0 ≤ setting.2)
    (fails : ¬(x.isFinite = true ∧ 0 ≤ x)) : Refused h (.negative name x)
  | aboveOne (nonNegative : ∀ setting ∈ h.nonNegatives, setting.2.isFinite = true ∧ 0 ≤ setting.2)
    (fails : ¬h.variability ≤ 1) : Refused h (.aboveOne "variability" h.variability)
  | infinite (nonNegative : ∀ setting ∈ h.nonNegatives, setting.2.isFinite = true ∧ 0 ≤ setting.2)
    (variability : h.variability ≤ 1) (fails : ¬h.branchAngle.isFinite = true) :
    Refused h (.infinite "branch_angle" h.branchAngle)

variable {h : Habit Float}

/-- The numbers that may not be negative are checked in a row. -/
theorem check_eq : h.check = (h.nonNegatives.forM fun setting => Setting.nonNegative setting.1 setting.2) >>= fun _ =>
    Setting.atMostOne "variability" h.variability >>= fun _ => Setting.finite "branch_angle" h.branchAngle := by
  simp only [check, nonNegatives, List.forM_eq_forM, List.forM_cons, List.forM_nil, bind_assoc, pure_bind]

theorem isFinite_variability (hrow : ∀ setting ∈ h.nonNegatives, setting.2.isFinite = true ∧ 0 ≤ setting.2) :
    h.variability.isFinite = true :=
  (hrow ("variability", h.variability) (by simp [nonNegatives])).1

theorem nonNegatives_eq_ok_iff {settings : List (String × Float)} :
    (settings.forM fun setting => Setting.nonNegative setting.1 setting.2) = .ok () ↔
      ∀ setting ∈ settings, setting.2.isFinite = true ∧ 0 ≤ setting.2 := by
  simp only [Except.forM_eq_ok_iff, Setting.nonNegative_eq, Except.ite_eq_ok_iff]

/-- **A habit is accepted if it is valid.** -/
theorem check_eq_ok_iff : h.check = .ok () ↔ h.Valid := by
  rw [check_eq, Except.check_bind_eq_ok, Except.check_bind_eq_ok, nonNegatives_eq_ok_iff]
  constructor
  · rintro ⟨hrow, hvariability, hangle⟩
    rw [Setting.atMostOne_eq (isFinite_variability hrow), Except.ite_eq_ok_iff] at hvariability
    exact ⟨hrow, hvariability, Except.ite_eq_ok_iff.mp hangle⟩
  · rintro ⟨hrow, hvariability, hangle⟩
    rw [Setting.atMostOne_eq (isFinite_variability hrow), Except.ite_eq_ok_iff]
    exact ⟨hrow, hvariability, Except.ite_eq_ok_iff.mpr hangle⟩

/-- **A habit that is not valid is refused for its first fault.** -/
theorem check_eq_error_iff {fault : SettingFault Float} : h.check = .error fault ↔ h.Refused fault := by
  rw [check_eq, Except.check_bind_eq_error, Except.check_bind_eq_error, Except.forM_eq_error_iff,
    nonNegatives_eq_ok_iff]
  constructor
  · rintro (⟨before, setting, after, hrow, hbefore, hfails⟩ | ⟨hrow, h | ⟨hvariability, hangle⟩⟩)
    · rw [Setting.nonNegative_eq, Except.ite_eq_error_iff] at hfails
      obtain ⟨hfails, rfl⟩ := hfails
      simp only [Setting.nonNegative_eq, Except.ite_eq_ok_iff] at hbefore
      exact .negative hrow hbefore hfails
    · rw [Setting.atMostOne_eq (isFinite_variability hrow), Except.ite_eq_error_iff] at h
      obtain ⟨hfails, rfl⟩ := h
      exact .aboveOne hrow hfails
    · rw [Setting.atMostOne_eq (isFinite_variability hrow), Except.ite_eq_ok_iff] at hvariability
      obtain ⟨hfails, rfl⟩ := Except.ite_eq_error_iff.mp hangle
      exact .infinite hrow hvariability hfails
  · rintro (⟨hrow, hbefore, hfails⟩ | ⟨hrow, hfails⟩ | ⟨hrow, hvariability, hfails⟩)
    · refine Or.inl ⟨_, _, _, hrow, ?_, ?_⟩
      · simpa only [Setting.nonNegative_eq, Except.ite_eq_ok_iff] using hbefore
      · rw [Setting.nonNegative_eq, Except.ite_eq_error_iff]
        exact ⟨hfails, rfl⟩
    · rw [Setting.atMostOne_eq (isFinite_variability hrow)]
      exact Or.inr ⟨hrow, Or.inl (if_neg hfails)⟩
    · rw [Setting.atMostOne_eq (isFinite_variability hrow)]
      exact Or.inr ⟨hrow, Or.inr ⟨if_pos hvariability, if_neg hfails⟩⟩

end Habit

end Arbor
