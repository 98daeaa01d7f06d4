import Arbor.Proofs.Command
import Arbor.Proofs.Skeleton.Annotation
import Arbor.Proofs.Walk.Basic
import Mathlib.Data.List.Forall2

/-!
# The shape of a walk

`Skeleton.SameShape` compares two skeletons in everything but their numbers: ids, parents, depths and marks of the
nodes, the ends of the segments, and how many leaves there are. Two turtles that are alike in what they have in hand
(`Turtle.Alike`) stay alike over symbols with the same character, whatever their gaits and the numbers of the symbols
(`Alike.apply`); so sentences with the same characters leave skeletons of the same shape (`sameShape_ofSentence`).
-/

namespace Arbor

/-- The node without its place and its radius. -/
def Node.shape {α : Type} (n : Node α) : Nat × Option Nat × Nat × Bool × Bool :=
  (n.id, n.parent, n.depth, n.isTerminal, n.isBranchPoint)

/-- The ends of a segment. -/
def Segment.ends {α : Type} (seg : Segment α) : Nat × Nat := (seg.start, seg.finish)

variable {α β : Type}

/-! ## Skeletons of the same shape -/

namespace Skeleton

/-- The skeletons differ in their numbers only. -/
structure SameShape (s : Skeleton α) (t : Skeleton β) : Prop where
  nodes : s.nodes.map Node.shape = t.nodes.map Node.shape
  segments : s.segments.map Segment.ends = t.segments.map Segment.ends
  leaves : s.leaves.size = t.leaves.size

namespace SameShape

variable {s : Skeleton α} {t : Skeleton β}

theorem size_nodes (h : s.SameShape t) : s.nodes.size = t.nodes.size := by
  simpa using congrArg Array.size h.nodes

theorem children (h : s.SameShape t) (i : Nat) : s.children i = t.children i := by
  have hends : s.segments.toList.map Segment.ends = t.segments.toList.map Segment.ends := by
    rw [← Array.toList_map, ← Array.toList_map, h.segments]
  have hchildren : ∀ {γ : Type} (u : Skeleton γ),
      u.children i = ((u.segments.toList.map Segment.ends).filter (·.1 == i)).map Prod.snd := by
    intro γ u
    rw [Skeleton.children, List.filter_map, List.map_map]
    rfl
  rw [hchildren, hchildren, hends]

theorem annotate (h : s.SameShape t) : s.annotate.SameShape t.annotate where
  nodes := by
    refine Array.ext_getElem? fun i => ?_
    have hi := congrArg (·[i]?) h.nodes
    simp only [Array.getElem?_map] at hi ⊢
    have hs := node?_annotate s i
    have ht := node?_annotate t i
    unfold node? at hs ht
    rw [hs, ht, Option.map_map, Option.map_map]
    -- a mark depends on the number of children alone
    have hmarked : ∀ {γ : Type} (u : Skeleton γ), Node.shape ∘ u.marked i =
        (fun n => (n.1, n.2.1, n.2.2.1, (u.children i).length == 0, decide (1 < (u.children i).length))) ∘
          Node.shape := fun u => rfl
    rw [hmarked, hmarked, h.children, ← Option.map_map, ← Option.map_map, hi]
  segments := h.segments
  leaves := h.leaves

end SameShape
end Skeleton

/-! ## Turtles with the same in hand -/

/-- The poses are at the same node, with the same branches open. -/
structure Pose.Alike (p : Pose α) (q : Pose β) : Prop where
  depth : p.depth = q.depth
  node : p.node = q.node

namespace Turtle

/-- The turtles stand and could return alike, and have made skeletons of the same shape. -/
structure Alike (t : Turtle α) (u : Turtle β) : Prop where
  pose : t.pose.Alike u.pose
  saved : List.Forall₂ Pose.Alike t.saved u.saved
  skeleton : t.skeleton.SameShape u.skeleton

namespace Alike

variable {t : Turtle α} {u : Turtle β}

theorem push (h : t.Alike u) : t.push.Alike u.push where
  pose := ⟨congrArg (· + 1) h.pose.depth, h.pose.node⟩
  saved := .cons h.pose h.saved
  skeleton := h.skeleton

theorem pop (h : t.Alike u) : t.pop.Alike u.pop := by
  obtain ⟨gait, pose, saved, skeleton⟩ := t
  obtain ⟨gait', pose', saved', skeleton'⟩ := u
  cases h.saved with
  | nil => exact h
  | cons hp hrest => exact ⟨hp, hrest, h.skeleton⟩

theorem sprout (h : t.Alike u) (size : α) (size' : β) : (t.sprout size).Alike (u.sprout size') where
  pose := h.pose
  saved := h.saved
  skeleton :=
    { nodes := h.skeleton.nodes
      segments := h.skeleton.segments
      leaves := by simp only [Turtle.sprout, Array.size_push, h.skeleton.leaves] }

variable [Scalar α] [Scalar β]

theorem start (gait : Gait α) (gait' : Gait β) : (Turtle.start gait).Alike (Turtle.start gait') where
  pose := ⟨rfl, rfl⟩
  saved := .nil
  skeleton := ⟨by simp [Turtle.start, Node.shape], by simp [Turtle.start], rfl⟩

theorem step (h : t.Alike u) (length : α) (length' : β) : (t.step length).Alike (u.step length') where
  pose := ⟨h.pose.depth, h.skeleton.size_nodes⟩
  saved := h.saved
  skeleton :=
    { nodes := by
        have hnew : (t.reached length).shape = (u.reached length').shape := by
          simp only [Node.shape, reached, h.skeleton.size_nodes, h.pose.node, h.pose.depth]
        rw [nodes_step, nodes_step, Array.map_push, Array.map_push, h.skeleton.nodes, hnew]
      segments := by
        have hsegments := h.skeleton.segments
        simp only [Turtle.step, Array.map_push, Segment.ends, h.skeleton.size_nodes, h.pose.node] at hsegments ⊢
        rw [hsegments]
      leaves := h.skeleton.leaves }

/-- **Symbols with the same character keep turtles alike.** -/
theorem apply (h : t.Alike u) {s : Symbol α} {s' : Symbol β} (hs : s.Alike s') : (t.apply s).Alike (u.apply s') := by
  unfold Turtle.apply
  rw [← hs.command]
  cases s.command with
  | forward => exact h.step _ _
  | turn axis positive => exact ⟨⟨h.pose.depth, h.pose.node⟩, h.saved, h.skeleton⟩
  | push => exact h.push
  | pop => exact h.pop
  | leaf => exact h.sprout _ _
  | idle => exact h

theorem foldl (h : t.Alike u) {xs : List (Symbol α)} {ys : List (Symbol β)}
    (hxs : List.Forall₂ Symbol.Alike xs ys) : (xs.foldl Turtle.apply t).Alike (ys.foldl Turtle.apply u) := by
  induction hxs generalizing t u with
  | nil => exact h
  | cons hs _ ih => exact ih (h.apply hs)

theorem walk (gait : Gait α) (gait' : Gait β) {xs : List (Symbol α)} {ys : List (Symbol β)}
    (hxs : List.Forall₂ Symbol.Alike xs ys) : (Turtle.walk gait xs).Alike (Turtle.walk gait' ys) :=
  (Alike.start gait gait').foldl hxs

end Alike
end Turtle

variable [Scalar α] [Scalar β]

/-- **The shape of a skeleton follows from the characters of its sentence.** -/
theorem Skeleton.sameShape_ofSentence (gait : Gait α) (gait' : Gait β) {xs : List (Symbol α)} {ys : List (Symbol β)}
    (hxs : List.Forall₂ Symbol.Alike xs ys) :
    (ofSentence gait xs).SameShape (ofSentence gait' ys) := (Turtle.Alike.walk gait gait' hxs).skeleton.annotate

end Arbor
