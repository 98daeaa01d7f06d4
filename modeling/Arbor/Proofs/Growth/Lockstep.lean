import Arbor.Proofs.Growth.Limit

/-!
# Two grammars side by side

Two grammars go in lockstep if their starts are related and every generation keeps related sentences related, of one
length and at the same place of the stream (`Grammar.Lockstep`). Then they stay so through all generations
(`Lockstep.grow`), and a limit stops both at the same generation or neither (`Lockstep.expandWithin`).
-/

namespace Arbor
namespace Grammar

variable {α : Type} [Scalar α]

/-- From the start on, generations keep sentences related and leave the stream at the same place. -/
structure Lockstep (g h : Grammar α) (R : List (Symbol α) → List (Symbol α) → Prop) : Prop where
  length : ∀ {xs ys}, R xs ys → xs.length = ys.length
  seedling : ∀ rng, R (g.seedling.run rng).1 (h.seedling.run rng).1 ∧ (g.seedling.run rng).2 = (h.seedling.run rng).2
  rewrite : ∀ {xs ys}, R xs ys → ∀ rng, R (g.rewrite xs rng).1 (h.rewrite ys rng).1 ∧
    (g.rewrite xs rng).2 = (h.rewrite ys rng).2

namespace Lockstep

variable {g h : Grammar α} {R : List (Symbol α) → List (Symbol α) → Prop}

theorem grow (hl : g.Lockstep h R) (rng : Rng) : ∀ n, R ((g.grow n).run rng).1 ((h.grow n).run rng).1 ∧
    ((g.grow n).run rng).2 = ((h.grow n).run rng).2
  | 0 => hl.seedling rng
  | n + 1 => by
    obtain ⟨hout, hrng⟩ := hl.grow rng n
    rw [grow_succ, grow_succ, ← hrng]
    exact hl.rewrite hout _

/-- Both stop at the same generation, or both go on to the end and stay related. -/
theorem growWithin (hl : g.Lockstep h R) (limit : Nat) : ∀ (n done : Nat) (xs ys : List (Symbol α)) (rng : Rng),
    R xs ys →
      (∃ k, done < k ∧ k ≤ done + n ∧ g.growWithin limit done xs rng n = .error (.sentenceTooLong limit k) ∧
        h.growWithin limit done ys rng n = .error (.sentenceTooLong limit k)) ∨
      ∃ xs' ys', g.growWithin limit done xs rng n = .ok xs' ∧ h.growWithin limit done ys rng n = .ok ys' ∧ R xs' ys'
  | 0, _, xs, ys, _, hxs => Or.inr ⟨xs, ys, rfl, rfl, hxs⟩
  | n + 1, done, xs, ys, rng, hxs => by
    obtain ⟨hout, hrng⟩ := hl.rewrite hxs rng
    have hlength := hl.length hout
    unfold Grammar.growWithin
    rw [rewriteWithin_eq, rewriteWithin_eq, ← hlength]
    by_cases hfit : (g.rewrite xs rng).1.length ≤ limit
    · rw [if_pos hfit, if_pos hfit]
      rcases growWithin hl limit n (done + 1) _ _ (g.rewrite xs rng).2 hout with ⟨k, h1, h2, hg, hh⟩ | hok
      · rw [hrng] at hh
        exact Or.inl ⟨k, by omega, by omega, hg, hh⟩
      · obtain ⟨xs', ys', hg, hh, hrelated⟩ := hok
        rw [hrng] at hh
        exact Or.inr ⟨xs', ys', hg, hh, hrelated⟩
    · rw [if_neg hfit, if_neg hfit]
      exact Or.inl ⟨done + 1, by omega, by omega, rfl, rfl⟩

/-- **The whole expansion stops at the same generation, or ends with related sentences.** -/
theorem expandWithin (hl : g.Lockstep h R) (limit n : Nat) (seed : String) :
    (∃ k ≤ n, g.expandWithin limit n seed = .error (.sentenceTooLong limit k) ∧
      h.expandWithin limit n seed = .error (.sentenceTooLong limit k)) ∨
    ∃ xs ys, g.expandWithin limit n seed = .ok xs ∧ h.expandWithin limit n seed = .ok ys ∧ R xs ys := by
  obtain ⟨hout, hrng⟩ := hl.grow (Rng.ofSeed seed) 0
  rw [expandWithin_eq_ite, expandWithin_eq_ite]
  have hlength : (g.expand 0 seed).length = (h.expand 0 seed).length := hl.length hout
  by_cases hlong : limit < (g.expand 0 seed).length
  · rw [if_pos hlong, if_pos (hlength ▸ hlong)]
    exact Or.inl ⟨0, Nat.zero_le n, rfl, rfl⟩
  · rw [if_neg hlong, if_neg (hlength ▸ hlong), ← hrng]
    rcases hl.growWithin limit n 0 _ _ ((g.grow 0).run (Rng.ofSeed seed)).2 hout with ⟨k, -, hk, hg, hh⟩ | hok
    · exact Or.inl ⟨k, by omega, hg, hh⟩
    · exact Or.inr hok

end Lockstep
end Grammar
end Arbor
