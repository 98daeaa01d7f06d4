import Arbor.Plan
import Arbor.Proofs.Growth.Kindred
import Arbor.Proofs.Walk.Shape

/-!
# Numbers and the shape of a tree

Plans with the same start, the same literal rules, the same number of generations and the same seed grow trees of one
shape, or are refused at the same generation, whatever their other settings are (`Plan.sameShape`). The one number that
counts is variability, and of it only whether it is zero: with variability steps and turns take draws from the stream
that the choice of rules reads, too.
-/

namespace Arbor
namespace Plan

open scoped Scalar

variable {α : Type} [Scalar α]

theorem skeleton_eq {p : Plan α} (hp : p.check = .ok ()) :
    p.skeleton = (p.grammar.expandWithin maxSymbols p.iterations p.seed).map fun sentence =>
      (.ofSentence p.gait sentence, sentence.length) := by
  unfold skeleton sentence
  rw [hp]
  show (p.grammar.expandWithin maxSymbols p.iterations p.seed >>= fun sentence => _) = _
  cases p.grammar.expandWithin maxSymbols p.iterations p.seed <;> rfl

theorem sentence_eq {p : Plan α} (hp : p.check = .ok ()) :
    p.sentence = p.grammar.expandWithin maxSymbols p.iterations p.seed := by
  unfold sentence
  rw [hp]; rfl

/-- **Numeric settings never change the shape of a tree.** Two accepted plans with the same start, literal rules,
generations and seed, both with variability or both without, are refused at the same generation, or have sentences with
the same text and skeletons of the same shape. -/
theorem sameShape {p q : Plan α} (hp : p.check = .ok ()) (hq : q.check = .ok ())
    (hstart : p.grammar.start = q.grammar.start) (hrules : p.grammar.rules = q.grammar.rules)
    (hliteral : ∀ r ∈ p.grammar.rules, ∃ text, r.produce = .literal text) (hiterations : p.iterations = q.iterations)
    (hseed : p.seed = q.seed)
    (hvariability : (p.grammar.habit.variability == 0) = (q.grammar.habit.variability == 0)) :
    (∃ generation ≤ p.iterations, p.skeleton = .error (.sentenceTooLong maxSymbols generation) ∧
      q.skeleton = .error (.sentenceTooLong maxSymbols generation)) ∨
    ∃ xs ys s t, p.sentence = .ok xs ∧ q.sentence = .ok ys ∧ Symbol.text xs = Symbol.text ys ∧
      p.skeleton = .ok (s, xs.length) ∧ q.skeleton = .ok (t, ys.length) ∧ xs.length = ys.length ∧ s.SameShape t := by
  have hk : p.grammar.Kindred q.grammar := ⟨hstart, hrules, hliteral, hvariability⟩
  rw [skeleton_eq hp, skeleton_eq hq, sentence_eq hp, sentence_eq hq, ← hiterations, ← hseed]
  rcases hk.expandWithin maxSymbols p.iterations p.seed with ⟨k, hk, hg, hh⟩ | ⟨xs, ys, hg, hh, halike⟩
  · rw [hg, hh]
    exact Or.inl ⟨k, hk, rfl, rfl⟩
  · rw [hg, hh]
    exact Or.inr ⟨xs, ys, _, _, rfl, rfl, Symbol.text_eq_of_alike halike, rfl, rfl, halike.length_eq,
      Skeleton.sameShape_ofSentence p.gait q.gait halike⟩

/-- A bush whose every branch is a choice of three, with half of each number left to chance. -/
def bush : Plan Float :=
  let rules := [⟨'A', 1, .literal "F[+A][-A]L"⟩, ⟨'F', 2, .literal "F+F"⟩, ⟨'A', 3, .literal "[&FA]]F"⟩,
    ⟨'A', 0.5, .literal "F"⟩]
  .ofGrammar ⟨"A[FA", rules, { Habit.standard with variability := 0.5 }⟩ 3

/-- The bush with all of its other numbers changed. -/
def stuntedBush : Plan Float :=
  { bush with
    grammar := { bush.grammar with habit := ⟨0, 4, 2, 0, -90, 0.001⟩ }
    gait := ⟨7, 3, 0, 1⟩
    bark := ⟨3, 0⟩ }

/-- The bush and its stunted copy have the same shape. -/
theorem sameShape_bush : bush.check = .ok () ∧ stuntedBush.check = .ok () ∧
    (bush.grammar.habit.variability == 0) = (stuntedBush.grammar.habit.variability == 0) ∧
    ∃ s t n, bush.skeleton = .ok (s, n) ∧ stuntedBush.skeleton = .ok (t, n) ∧ s.SameShape t := by
  have hbush : bush.check = .ok () := by decide +kernel
  have hstunted : stuntedBush.check = .ok () := by decide +kernel
  have hvariability : (bush.grammar.habit.variability == 0) = (stuntedBush.grammar.habit.variability == 0) := by
    decide +kernel
  have hliteral : ∀ r ∈ bush.grammar.rules, ∃ text, r.produce = .literal text := by
    intro r hr
    simp only [bush, ofGrammar, List.mem_cons, List.not_mem_nil, or_false] at hr
    rcases hr with rfl | rfl | rfl | rfl <;> exact ⟨_, rfl⟩
  refine ⟨hbush, hstunted, hvariability, ?_⟩
  have hgrown : bush.skeleton.toBool = true := by decide +kernel
  rcases sameShape hbush hstunted rfl rfl hliteral rfl rfl hvariability with
    ⟨k, -, herror, -⟩ | ⟨xs, ys, s, t, -, -, -, hs, ht, hlength, hsame⟩
  · rw [herror] at hgrown
    cases hgrown
  · exact ⟨s, t, xs.length, hs, hlength ▸ ht, hsame⟩

end Plan
end Arbor
