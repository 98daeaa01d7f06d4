import Arbor.Proofs.Walk.Depth

/-!
# The leaves of a walk

Only a leaf symbol puts a leaf, and it puts one where the turtle stands when it comes to the symbol. So the leaves are
counted on the sentence (`Turtle.size_leaves_walk`), and each is found under the number of its symbol
(`Turtle.leaf_walk`).
-/

namespace Arbor

open scoped Scalar

namespace Turtle

variable {α : Type} [Scalar α]

/-- Nothing but a leaf symbol puts a leaf. -/
theorem leaves_apply (t : Turtle α) {x : Symbol α} (h : x.command ≠ .leaf) :
    (t.apply x).skeleton.leaves = t.skeleton.leaves := by
  unfold apply
  cases hx : x.command with
  | leaf => exact absurd hx h
  | pop => exact congrArg Skeleton.leaves (skeleton_pop t)
  | forward | turn | push | idle => rfl

/-- A leaf symbol puts one leaf; nothing else puts any. -/
theorem size_leaves_apply (t : Turtle α) (x : Symbol α) :
    (t.apply x).skeleton.leaves.size = t.skeleton.leaves.size + if x.tag = 'L' then 1 else 0 := by
  have hleaf : x.command = .leaf ↔ x.tag = 'L' := Command.ofChar_eq_iff rfl
  by_cases h : x.command = .leaf
  · rw [if_pos (hleaf.mp h), apply, h]
    exact Array.size_push _
  · rw [leaves_apply t h, if_neg fun hx => h (hleaf.mpr hx), Nat.add_zero]

/-- A walk has put as many leaves as its sentence has leaf symbols. -/
theorem size_leaves_walk (gait : Gait α) (sentence : List (Symbol α)) :
    (walk gait sentence).skeleton.leaves.size = (sentence.map Symbol.tag).count 'L' := by
  refine walk_induction (P := fun xs t => t.skeleton.leaves.size = (xs.map Symbol.tag).count 'L') rfl
    (fun xs t s ih => ?_) sentence
  rw [size_leaves_apply, ih, List.map_append, List.count_append, List.map_singleton, List.count_singleton]
  simp only [beq_iff_eq]

/-- **A leaf symbol at any place of the sentence has put the leaf of its number,** where the turtle stood there. -/
theorem leaf_walk (gait : Gait α) {sentence : List (Symbol α)} {i : Nat} {x : Symbol α} (hx : sentence[i]? = some x)
    (hleaf : x.tag = 'L') :
    let pose := (walk gait (sentence.take i)).pose
    (walk gait sentence).skeleton.leaves[((sentence.take i).map Symbol.tag).count 'L']? =
      some ⟨pose.position, pose.orientation, x.size.getD 1⟩ := by
  intro pose
  have hcommand : x.command = .leaf := (Command.ofChar_eq_iff rfl).mpr hleaf
  have hput : ((walk gait (sentence.take i)).apply x).skeleton.leaves =
      (walk gait (sentence.take i)).skeleton.leaves.push ⟨pose.position, pose.orientation, x.size.getD 1⟩ := by
    rw [apply, hcommand]
    rfl
  refine getElem?_of_prefix (within_walk_at gait hx).leaves ?_
  rw [hput, ← size_leaves_walk gait, Array.getElem?_push_size]

end Turtle
end Arbor
