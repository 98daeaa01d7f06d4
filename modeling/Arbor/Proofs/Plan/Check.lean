import Arbor.Proofs.Acceptance
import Arbor.Tree

/-!
# What an accepted plan and a grown tree are

A plan is accepted if it passes all checks (`Plan.check_eq_ok_iff`), a tree is grown only from an accepted plan
(`Plan.sentence_eq_ok_iff`), and it is the tree of the skeleton that its sentence leaves (`Plan.skeleton_eq_ok_iff`,
`Tree.ofPlan_eq_ok_iff`).
-/

namespace Arbor

namespace Plan

variable {α : Type} [Scalar α] {p : Plan α}

/-- **A plan is accepted if it passes every check.** -/
theorem check_eq_ok_iff : p.check = .ok () ↔ p.iterations ≤ maxIterations ∧ 3 ≤ p.bark.radialSegments ∧
    1 ≤ p.leafShape.segments ∧ p.checkSettings = .ok () ∧ p.scatter.baseColor.toList.forM checkChannel = .ok () := by
  unfold check
  simp only [Except.guard_eq_ok, Except.check_bind_eq_ok, Except.mapError_eq_ok, Nat.not_lt]

theorem sentence_eq_ok_iff {sentence : List (Symbol α)} : p.sentence = .ok sentence ↔
    p.check = .ok () ∧ p.grammar.expandWithin maxSymbols p.iterations p.seed = .ok sentence := by
  unfold Plan.sentence
  simp only [Except.check_bind_eq_ok, Except.mapError_eq_ok]

/-- The skeleton of a plan is that of its sentence. -/
theorem skeleton_eq_ok_iff {s : Skeleton α} {symbols : Nat} : p.skeleton = .ok (s, symbols) ↔
    ∃ sentence, p.sentence = .ok sentence ∧ Skeleton.ofSentence p.gait sentence = s ∧ sentence.length = symbols := by
  unfold Plan.skeleton
  simp only [Except.bind_pure_eq_ok, Prod.mk.injEq]

end Plan

namespace Tree

variable {p : Plan Float}

/-- A tree is made of the sentence of its plan. -/
theorem ofPlan_eq_bind : ofPlan p = p.sentence >>= fun sentence =>
    pure (ofSkeleton p (.ofSentence p.gait sentence) sentence.length) := by
  unfold ofPlan Plan.skeleton
  rw [bind_assoc]
  rfl

/-- **A tree is grown from the sentence of its plan.** -/
theorem ofPlan_eq_ok_iff {t : Tree} : ofPlan p = .ok t ↔
    ∃ sentence, p.sentence = .ok sentence ∧ ofSkeleton p (.ofSentence p.gait sentence) sentence.length = t := by
  rw [ofPlan_eq_bind, Except.bind_pure_eq_ok]

end Tree

end Arbor
