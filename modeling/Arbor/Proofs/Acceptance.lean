import Arbor.Grammar

/-!
# What passes a check

One `iff` for each way in which a check goes on, so that what has been accepted is read off by rewriting, and what a
grammar is that has been accepted (`Grammar.ofRules_eq_ok_iff`).
-/

namespace Arbor

/-- What comes behind a check is reached if the check is passed. -/
theorem Except.check_bind_eq_ok {ε β : Type} {x : Except ε Unit} {rest : Unit → Except ε β} {y : β} :
    x >>= rest = .ok y ↔ x = .ok () ∧ rest () = .ok y := by
  cases x with
  | error e => exact iff_of_false nofun fun hpass => nomatch hpass.1
  | ok => exact (and_iff_right rfl).symm

/-- What comes behind a guard is reached if the guard does not hold. -/
theorem Except.guard_eq_ok {ε β : Type} {c : Prop} [Decidable c] {e : ε} {rest : PUnit → Except ε β} {y : β} :
    (if c then throw e >>= rest else rest ⟨⟩) = .ok y ↔ ¬c ∧ rest ⟨⟩ = .ok y := by
  by_cases h : c
  · rw [if_pos h]
    exact iff_of_false nofun fun hpass => hpass.1 h
  · rw [if_neg h, and_iff_right h]

theorem Except.ite_error_eq_ok {ε β : Type} {c : Prop} [Decidable c] {e : ε} {x : Except ε β} {y : β} :
    (if c then .error e else x) = .ok y ↔ ¬c ∧ x = .ok y := by
  by_cases h : c
  · rw [if_pos h]
    exact iff_of_false nofun fun hpass => hpass.1 h
  · rw [if_neg h, and_iff_right h]

theorem Except.mapError_eq_ok {ε ε' β : Type} {f : ε → ε'} {x : Except ε β} {y : β} :
    x.mapError f = .ok y ↔ x = .ok y := by
  cases x with
  | error e => exact iff_of_false nofun nofun
  | ok b =>
    constructor
    · rintro ⟨⟩
      rfl
    · rintro ⟨⟩
      rfl

/-- What is made of a result is there if the result is. -/
theorem Except.bind_pure_eq_ok {ε β γ : Type} {x : Except ε β} {f : β → γ} {y : γ} :
    (x >>= fun b => pure (f b)) = .ok y ↔ ∃ b, x = .ok b ∧ f b = y := by
  cases x with
  | error e => exact iff_of_false nofun nofun
  | ok b =>
    constructor
    · rintro ⟨⟩
      exact ⟨b, rfl, rfl⟩
    · rintro ⟨_, ⟨⟩, rfl⟩
      rfl

theorem Except.eq_ok_of_toBool {ε : Type} {x : Except ε Unit} (h : x.toBool = true) : x = .ok () := by
  cases x with
  | error e => cases h
  | ok => rfl

/-- A row of checks is passed if each of them is. -/
theorem Except.forM_eq_ok_iff {ε β : Type} {check : β → Except ε Unit} {xs : List β} :
    xs.forM check = .ok () ↔ ∀ x ∈ xs, check x = .ok () := by
  induction xs with
  | nil => exact iff_of_true rfl nofun
  | cons x xs ih =>
    rw [List.forM_eq_forM, List.forM_cons, Except.check_bind_eq_ok, List.forall_mem_cons, ← ih]
    rfl

namespace Grammar

variable {α : Type} [Scalar α] {g : Grammar α}

/-- **A grammar is accepted if it has a start, and its habit, its rules and its groups pass their checks.** -/
theorem ofRules_eq_ok_iff {start : String} {rules : List (Rule α)} {habit : Habit α} :
    ofRules start rules habit = .ok g ↔ start.isEmpty = false ∧ habit.check = .ok () ∧
      (∀ r ∈ rules, r.check = .ok ()) ∧ (∀ c ∈ Rule.symbols rules, Rule.checkTotal rules c = .ok ()) ∧
      ⟨start, rules, habit⟩ = g := by
  unfold ofRules
  simp only [Except.guard_eq_ok, Except.check_bind_eq_ok, Except.mapError_eq_ok, Except.forM_eq_ok_iff,
    Bool.not_eq_true, pure, Except.pure, Except.ok.injEq]

/-- An accepted grammar has the parts that it was made from. -/
theorem ofRules_eq_ok_of_toBool {start : String} {rules : List (Rule α)} {habit : Habit α}
    (h : (ofRules start rules habit).toBool = true) : ofRules start rules habit = .ok ⟨start, rules, habit⟩ := by
  cases hmade : ofRules start rules habit with
  | error fault => rw [hmade] at h; cases h
  | ok g =>
    obtain ⟨-, -, -, -, rfl⟩ := ofRules_eq_ok_iff.mp hmade
    rfl

/-- An accepted grammar has no rules for brackets. -/
theorem rulesFor_of_isBracket (hg : ofRules g.start g.rules g.habit = .ok g) {c : Char}
    (hc : (Command.ofChar c).isBracket = true) : g.rulesFor c = [] := by
  obtain ⟨-, -, hrules, -⟩ := ofRules_eq_ok_iff.mp hg
  refine List.filter_eq_nil_iff.mpr fun r hr hsymbol => ?_
  obtain rfl : r.symbol = c := eq_of_beq hsymbol
  have hcheck := hrules r hr
  unfold Rule.check at hcheck
  rw [if_pos hc] at hcheck
  split at hcheck
  · cases hcheck
  · cases hcheck

end Grammar

end Arbor
