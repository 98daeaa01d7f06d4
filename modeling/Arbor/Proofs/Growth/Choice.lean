import Arbor.Expansion

/-!
# What a generation does to one symbol

A weighted choice falls on one of its items, and fails only if there is none (`Draw.weighted_cases`). So a bracket stays
and moves the depth, a symbol without rules stays, and any other is replaced by what one of its rules makes
(`Grammar.rewriteSymbol_cases`).
-/

namespace Arbor

open scoped Scalar

theorem Grammar.mem_rulesFor {α : Type} {g : Grammar α} {r : Rule α} {c : Char} :
    r ∈ g.rulesFor c ↔ r ∈ g.rules ∧ r.symbol = c := by
  rw [rulesFor, Rule.group, List.mem_filter, beq_iff_eq]

variable {α : Type} [Scalar α]

/-! ## Choices -/

namespace Draw

variable {β : Type} (odds : β → α)

theorem reached_mem (threshold : α) : ∀ (items : List β) (total : α) (last : β),
    reached odds threshold total last items ∈ last :: items
  | [], _, _ => List.mem_singleton_self _
  | x :: items, total, last => by
    unfold reached
    by_cases h : threshold < total + odds x
    · simp only [if_pos h]
      exact List.mem_cons_of_mem _ List.mem_cons_self
    · simp only [if_neg h]
      exact List.mem_cons_of_mem _ (reached_mem threshold items (total + odds x) x)

/-- **A choice falls on one of the items,** whatever their odds, and on none only if there is none. -/
theorem weighted_cases (items : List β) (rng : Rng) :
    (items = [] ∧ (weighted odds items).run rng = (none, rng)) ∨
      ∃ x ∈ items, ∃ rng', (weighted odds items).run rng = (some x, rng') := by
  match items with
  | [] => exact Or.inl ⟨rfl, rfl⟩
  | [x] => exact Or.inr ⟨x, List.mem_singleton_self x, rng, rfl⟩
  | x :: y :: rest =>
    have hmem : ∀ threshold : α, reached odds threshold 0 x (x :: y :: rest) ∈ x :: y :: rest := by
      intro threshold
      rcases List.mem_cons.mp (reached_mem odds threshold (x :: y :: rest) 0 x) with h | h
      · rw [h]; exact List.mem_cons_self
      · exact h
    exact Or.inr ⟨_, hmem _, _, rfl⟩

end Draw

/-! ## Replacements -/

namespace Grammar

variable (g : Grammar α)

/-- A symbol stays if it has no rules, and is replaced by one of them otherwise. -/
theorem replace_cases (depth : Nat) (s : Symbol α) (rng : Rng) :
    (g.rulesFor s.tag = [] ∧ (g.replace depth s).run rng = ([s], rng)) ∨
      ∃ r ∈ g.rulesFor s.tag, ∃ rng', (g.replace depth s).run rng = (r.produce.apply g.habit depth s).run rng' := by
  unfold replace
  rcases Draw.weighted_cases Rule.odds (g.rulesFor s.tag) rng with ⟨hnil, hrun⟩ | ⟨r, hr, rng', hrun⟩
  · refine Or.inl ⟨hnil, ?_⟩
    rw [StateT.run_bind, hrun]; rfl
  · refine Or.inr ⟨r, hr, rng', ?_⟩
    rw [StateT.run_bind, hrun]; rfl

/-- **A bracket stays and moves the depth, a symbol without rules stays, any other is replaced.** -/
theorem rewriteSymbol_cases (cursor : Cursor) (s : Symbol α) :
    (s.command.isBracket = true ∧
      g.rewriteSymbol cursor s = ([s], { cursor with depth := s.command.nest cursor.depth })) ∨
    (s.command.isBracket = false ∧ g.rulesFor s.tag = [] ∧ g.rewriteSymbol cursor s = ([s], cursor)) ∨
    (s.command.isBracket = false ∧ ∃ r ∈ g.rulesFor s.tag, ∃ rng', g.rewriteSymbol cursor s =
      (((r.produce.apply g.habit cursor.depth s).run rng').1,
        { cursor with rng := ((r.produce.apply g.habit cursor.depth s).run rng').2 })) := by
  unfold rewriteSymbol
  cases hb : s.command.isBracket with
  | true => exact Or.inl ⟨rfl, rfl⟩
  | false =>
    rcases replace_cases g cursor.depth s cursor.rng with ⟨hnil, hrun⟩ | ⟨r, hr, rng', hrun⟩
    · exact Or.inr (Or.inl ⟨rfl, hnil, by simp only [hrun]; rfl⟩)
    · exact Or.inr (Or.inr ⟨rfl, r, hr, rng', by simp only [hrun]; rfl⟩)

end Grammar

end Arbor
