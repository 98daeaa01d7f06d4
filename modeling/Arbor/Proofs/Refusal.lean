import Arbor.Proofs.Acceptance

/-!
# What a refusal names

The counterparts of `Arbor.Proofs.Acceptance`: one `iff` for each way in which a check goes on, for the fault that is
reported. Of a row of checks it is the first fault (`Except.forM_eq_error_iff`).
-/

namespace Arbor

variable {ε ε' β γ : Type}

/-- What comes behind a computation fails with it, or on its own. -/
theorem Except.bind_eq_error_iff {x : Except ε β} {rest : β → Except ε γ} {e : ε} :
    x >>= rest = .error e ↔ x = .error e ∨ ∃ b, x = .ok b ∧ rest b = .error e := by
  cases x with
  | error e' =>
    constructor
    · rintro ⟨⟩
      exact Or.inl rfl
    · rintro (⟨⟨⟩⟩ | ⟨_, ⟨⟩, -⟩)
      rfl
  | ok b =>
    constructor
    · exact fun h => Or.inr ⟨b, rfl, h⟩
    · rintro (⟨⟨⟩⟩ | ⟨_, ⟨⟩, h⟩)
      exact h

theorem Except.check_bind_eq_error {x : Except ε Unit} {rest : Unit → Except ε β} {e : ε} :
    x >>= rest = .error e ↔ x = .error e ∨ x = .ok () ∧ rest () = .error e := by
  rw [bind_eq_error_iff]
  exact or_congr_right ⟨fun ⟨_, hpass, h⟩ => ⟨hpass, h⟩, fun h => ⟨(), h⟩⟩

theorem Except.guard_eq_error {c : Prop} [Decidable c] {e e' : ε} {rest : PUnit → Except ε β} :
    (if c then throw e >>= rest else rest ⟨⟩) = .error e' ↔ c ∧ e = e' ∨ ¬c ∧ rest ⟨⟩ = .error e' := by
  by_cases h : c
  · rw [if_pos h]
    constructor
    · intro he
      cases he
      exact Or.inl ⟨h, rfl⟩
    · rintro (⟨-, rfl⟩ | ⟨hc, -⟩)
      · rfl
      · exact absurd h hc
  · rw [if_neg h]
    constructor
    · exact fun he => Or.inr ⟨h, he⟩
    · rintro (⟨hc, -⟩ | ⟨-, he⟩)
      · exact absurd hc h
      · exact he

theorem Except.mapError_eq_error {f : ε → ε'} {x : Except ε β} {e : ε'} :
    x.mapError f = .error e ↔ ∃ e', x = .error e' ∧ f e' = e := by
  cases x with
  | error e' =>
    constructor
    · rintro ⟨⟩
      exact ⟨e', rfl, rfl⟩
    · rintro ⟨_, ⟨⟩, rfl⟩
      rfl
  | ok b => exact iff_of_false nofun fun ⟨_, h, _⟩ => nomatch h

/-- What is made of a result fails as the result does. -/
theorem Except.bind_pure_eq_error {x : Except ε β} {f : β → γ} {e : ε} :
    (x >>= fun b => pure (f b)) = .error e ↔ x = .error e := by
  cases x with
  | error e' =>
    constructor
    · rintro ⟨⟩
      rfl
    · rintro ⟨⟩
      rfl
  | ok b => exact iff_of_false nofun nofun

theorem Except.ite_eq_ok_iff {p : Prop} [Decidable p] {e : ε} :
    (if p then .ok () else .error e : Except ε Unit) = .ok () ↔ p := by
  by_cases h : p
  · rw [if_pos h]
    exact iff_of_true rfl h
  · rw [if_neg h]
    exact iff_of_false nofun h

theorem Except.ite_eq_error_iff {p : Prop} [Decidable p] {e e' : ε} :
    (if p then .ok () else .error e : Except ε Unit) = .error e' ↔ ¬p ∧ e = e' := by
  by_cases h : p
  · rw [if_pos h]
    exact iff_of_false nofun fun hp => hp.1 h
  · rw [if_neg h, Except.error.injEq]
    exact (and_iff_right h).symm

/-- **A row of checks fails with the first fault.** -/
theorem Except.forM_eq_error_iff {check : β → Except ε Unit} {xs : List β} {e : ε} :
    xs.forM check = .error e ↔
      ∃ before x after, xs = before ++ x :: after ∧ (∀ y ∈ before, check y = .ok ()) ∧ check x = .error e := by
  induction xs with
  | nil => exact iff_of_false nofun fun ⟨before, _, _, h, _⟩ => by cases before <;> cases h
  | cons x xs ih =>
    rw [List.forM_eq_forM, List.forM_cons, Except.check_bind_eq_error]
    constructor
    · rintro (h | ⟨hx, h⟩)
      · exact ⟨[], x, xs, rfl, nofun, h⟩
      · obtain ⟨before, y, after, rfl, hbefore, hy⟩ := ih.mp h
        exact ⟨x :: before, y, after, rfl, List.forall_mem_cons.mpr ⟨hx, hbefore⟩, hy⟩
    · rintro ⟨before, y, after, hxs, hbefore, hy⟩
      cases before with
      | nil =>
        cases hxs
        exact Or.inl hy
      | cons z before =>
        cases hxs
        obtain ⟨hz, hbefore⟩ := List.forall_mem_cons.mp hbefore
        exact Or.inr ⟨hz, ih.mpr ⟨before, y, after, rfl, hbefore, hy⟩⟩

end Arbor
