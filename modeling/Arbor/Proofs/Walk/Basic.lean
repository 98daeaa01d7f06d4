import Arbor.Turtle
import Mathlib.Data.List.Induction

/-!
# What a walk can do

Every symbol makes the turtle step, turn, save its place, return, put a leaf or stay (`apply_induction`); a property
that all of these keep holds all along a walk (`walk_induction`). Only a step makes a node (`made_apply`), and it puts
it behind all others (`node?_step`).
-/

namespace Arbor

open scoped Scalar

namespace Turtle

/-! ## Returning -/

/-- Returning leaves the skeleton as it is. -/
@[simp] theorem skeleton_pop {α : Type} (t : Turtle α) : t.pop.skeleton = t.skeleton := by
  unfold pop
  cases t.saved <;> rfl

@[simp] theorem gait_pop {α : Type} (t : Turtle α) : t.pop.gait = t.gait := by
  unfold pop
  cases t.saved <;> rfl

variable {α : Type} [Scalar α]

/-! ## Symbols -/

/-- What holds after each thing a turtle can do holds after every symbol. -/
theorem apply_induction {P : Turtle α → Prop} {t : Turtle α} (s : Symbol α)
    (step : s.command = .forward → P (t.step (s.length.getD t.gait.defaultLength)))
    (turn : ∀ axis positive, s.command = .turn axis positive →
      ∀ angle, P { t with pose := t.pose.turn axis angle })
    (push : s.command = .push → P t.push) (pop : s.command = .pop → P t.pop)
    (leaf : s.command = .leaf → P (t.sprout (s.size.getD 1))) (idle : s.command = .idle → P t) : P (t.apply s) := by
  unfold apply
  cases h : s.command with
  | forward => exact step h
  | turn axis positive => exact turn axis positive h _
  | push => exact push h
  | pop => exact pop h
  | leaf => exact leaf h
  | idle => exact idle h

/-- The node that a step makes. -/
def reached (t : Turtle α) (length : α) : Node α where
  id := t.skeleton.nodes.size
  position := t.pose.position + t.pose.orientation.heading.scale length
  orientation := t.pose.orientation
  radius := t.gait.radiusAt t.pose.depth
  parent := some t.pose.node
  depth := t.pose.depth
  isTerminal := false
  isBranchPoint := false

theorem nodes_step (t : Turtle α) (length : α) :
    (t.step length).skeleton.nodes = t.skeleton.nodes.push (t.reached length) := rfl

/-- A step puts its node behind all others. -/
theorem node?_step (t : Turtle α) (length : α) (i : Nat) :
    (t.step length).skeleton.node? i =
      if i = t.skeleton.nodes.size then some (t.reached length) else t.skeleton.node? i := by
  unfold Skeleton.node?
  rw [nodes_step, Array.getElem?_push]

/-- The node that a step makes is found at its id. -/
theorem node?_step_new (t : Turtle α) (length : α) :
    (t.step length).skeleton.node? t.skeleton.nodes.size = some (t.reached length) := by
  rw [node?_step, if_pos rfl]

/-- A step keeps every node. -/
theorem node?_step_old {t : Turtle α} {i : Nat} {n : Node α} (h : t.skeleton.node? i = some n) (length : α) :
    (t.step length).skeleton.node? i = some n := by
  have hi : i < t.skeleton.nodes.size := (Array.getElem?_eq_some_iff.mp h).1
  rw [node?_step, if_neg (by omega), h]

/-- After a step there are the node it made and the nodes before. -/
theorem node?_step_cases {t : Turtle α} {length : α} {i : Nat} {n : Node α}
    (h : (t.step length).skeleton.node? i = some n) :
    (i = t.skeleton.nodes.size ∧ n = t.reached length) ∨ t.skeleton.node? i = some n := by
  rw [node?_step] at h
  by_cases hi : i = t.skeleton.nodes.size
  · rw [if_pos hi] at h
    exact Or.inl ⟨hi, (Option.some.inj h).symm⟩
  · rw [if_neg hi] at h
    exact Or.inr h

@[simp] theorem gait_apply (t : Turtle α) (s : Symbol α) : (t.apply s).gait = t.gait :=
  apply_induction (P := fun t' => t'.gait = t.gait) s (fun _ => rfl) (fun _ _ _ _ => rfl) (fun _ => rfl)
    (fun _ => gait_pop t) (fun _ => rfl) (fun _ => rfl)

theorem apply_forward (t : Turtle α) {s : Symbol α} (h : s.command = .forward) :
    t.apply s = t.step (s.length.getD t.gait.defaultLength) := by
  unfold apply
  rw [h]

/-- Only a step makes nodes and segments. -/
theorem made_apply (t : Turtle α) {s : Symbol α} (h : s.command ≠ .forward) :
    (t.apply s).skeleton.nodes = t.skeleton.nodes ∧ (t.apply s).skeleton.segments = t.skeleton.segments :=
  apply_induction
    (P := fun t' => t'.skeleton.nodes = t.skeleton.nodes ∧ t'.skeleton.segments = t.skeleton.segments) s
    (fun hs => absurd hs h) (fun _ _ _ _ => ⟨rfl, rfl⟩) (fun _ => ⟨rfl, rfl⟩)
    (fun _ => by rw [skeleton_pop]; exact ⟨rfl, rfl⟩) (fun _ => ⟨rfl, rfl⟩) (fun _ => ⟨rfl, rfl⟩)

/-! ## Walks -/

@[simp] theorem walk_nil (gait : Gait α) : walk gait [] = start gait := rfl

/-- A walk goes on from where its first part ends. -/
theorem walk_append (gait : Gait α) (xs ys : List (Symbol α)) :
    walk gait (xs ++ ys) = ys.foldl apply (walk gait xs) := List.foldl_append

theorem walk_snoc (gait : Gait α) (xs : List (Symbol α)) (s : Symbol α) :
    walk gait (xs ++ [s]) = (walk gait xs).apply s := walk_append gait xs [s]

/-- What holds at the start and is kept by every symbol holds at every place of a walk. -/
theorem walk_induction {P : List (Symbol α) → Turtle α → Prop} {gait : Gait α} (nil : P [] (start gait))
    (snoc : ∀ xs t s, P xs t → P (xs ++ [s]) (t.apply s)) (sentence : List (Symbol α)) :
    P sentence (walk gait sentence) := by
  induction sentence using List.reverseRecOn with
  | nil =>
    rw [walk_nil]
    exact nil
  | append_singleton xs s ih =>
    rw [walk_snoc]
    exact snoc xs _ s ih

@[simp] theorem gait_walk (gait : Gait α) (sentence : List (Symbol α)) : (walk gait sentence).gait = gait :=
  walk_induction (P := fun _ t => t.gait = gait) rfl (fun _ t s h => (gait_apply t s).trans h) sentence

end Turtle

end Arbor
