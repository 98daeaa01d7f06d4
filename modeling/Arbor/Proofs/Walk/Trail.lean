import Arbor.Proofs.Skeleton.Parts
import Arbor.Proofs.Walk.Depth

/-!
# What a part of a sentence adds

`Turtle.trail` is what a turtle adds to its skeleton on a part of a sentence (`skeleton_foldl`). Besides the symbols it
depends on what the turtle has in hand and on the id that the next node gets, and on nothing else of the skeleton: two
turtles that have the same in hand but for the ids (`Turtle.Carried`) add the same but for the ids (`Carried.foldl`),
as long as the ids of the new nodes correspond.
-/

namespace Arbor

theorem append_extract_of_prefix {β : Type} {a b : Array β} (h : a.toList <+: b.toList) :
    a ++ b.extract a.size b.size = b := by
  refine Array.ext' ?_
  rw [Array.toList_append, Array.toList_extract, List.extract_eq_take_drop, ← Array.length_toList,
    ← Array.length_toList, List.take_of_length_le (by simp)]
  exact List.prefix_iff_eq_append.mp h

theorem Skeleton.Within.append_between {α : Type} {s t : Skeleton α} (h : s.Within t) : s ++ t.between s t = t := by
  ext1
  · exact append_extract_of_prefix h.nodes
  · exact append_extract_of_prefix h.segments
  · exact append_extract_of_prefix h.leaves

variable {α : Type}

/-- The place with its id carried along by a function. -/
def Pose.renumber (f : Nat → Nat) (p : Pose α) : Pose α := { p with node := f p.node }

namespace Turtle

/-! ## The same in hand but for the ids -/

/-- The second turtle has in hand what the first has, with the ids carried along by a function. -/
structure Carried (f : Nat → Nat) (t t' : Turtle α) : Prop where
  gait : t'.gait = t.gait
  pose : t'.pose = t.pose.renumber f
  saved : t'.saved = t.saved.map (Pose.renumber f)

/-- What a leaf symbol adds. -/
def bud (t : Turtle α) (size : α) : Skeleton α := ⟨#[], #[], #[⟨t.pose.position, t.pose.orientation, size⟩]⟩

theorem skeleton_sprout (t : Turtle α) (size : α) : (t.sprout size).skeleton = t.skeleton ++ t.bud size := by
  ext1
  · exact Array.append_empty.symm
  · exact Array.append_empty.symm
  · rfl

section Carried

variable {f : Nat → Nat} {t t' : Turtle α}

/-- Turtles with the very same in hand, all on nodes with fixed ids. -/
theorem Carried.of_fixed (hgait : t'.gait = t.gait) (hpose : t'.pose = t.pose) (hsaved : t'.saved = t.saved)
    (hfixed : ∀ p ∈ t.pose :: t.saved, f p.node = p.node) : t.Carried f t' := by
  have hself : ∀ p ∈ t.pose :: t.saved, p.renumber f = p := by
    intro p hp
    rw [Pose.renumber, hfixed p hp]
  refine ⟨hgait, ?_, ?_⟩
  · rw [hpose, hself t.pose List.mem_cons_self]
  · rw [hsaved]
    exact ((List.map_congr_left fun p hp => hself p (List.mem_cons_of_mem _ hp)).trans (List.map_id _)).symm

theorem Carried.push (h : t.Carried f t') : t.push.Carried f t'.push where
  gait := h.gait
  pose := by simp only [Turtle.push, Pose.renumber, h.pose]
  saved := by simp only [Turtle.push, h.pose, h.saved, List.map_cons]

theorem Carried.pop (h : t.Carried f t') : t.pop.Carried f t'.pop := by
  obtain ⟨hgait, hpose, hsaved⟩ := h
  unfold Turtle.pop
  rw [hsaved]
  cases t.saved with
  | nil => exact ⟨hgait, hpose, hsaved⟩
  | cons p rest => exact ⟨hgait, rfl, rfl⟩

theorem Carried.bud (h : t.Carried f t') (size : α) : t'.bud size = (t.bud size).renumber f := by
  simp [Turtle.bud, Skeleton.renumber, h.pose, Pose.renumber]

end Carried

variable [Scalar α]

/-! ## Trails -/

/-- What the turtle adds to its skeleton on a part of a sentence. -/
def trail (t : Turtle α) (xs : List (Symbol α)) : Skeleton α :=
  (xs.foldl apply t).skeleton.between t.skeleton (xs.foldl apply t).skeleton

theorem within_foldl (t : Turtle α) (xs : List (Symbol α)) : t.skeleton.Within (xs.foldl apply t).skeleton := by
  induction xs generalizing t with
  | nil => exact .refl _
  | cons x xs ih => exact (within_apply t x).trans (ih (t.apply x))

/-- The trail is put behind what was there. -/
theorem skeleton_foldl (t : Turtle α) (xs : List (Symbol α)) :
    (xs.foldl apply t).skeleton = t.skeleton ++ t.trail xs := (within_foldl t xs).append_between.symm

theorem trail_of_skeleton {t : Turtle α} {xs : List (Symbol α)} {made : Skeleton α}
    (h : (xs.foldl apply t).skeleton = t.skeleton ++ made) : t.trail xs = made := by
  rw [trail, h, Skeleton.between_append_last]

theorem size_nodes_apply {t : Turtle α} (h : t.Sound) (x : Symbol α) :
    (t.apply x).skeleton.nodes.size = t.skeleton.nodes.size + if x.tag = 'F' then 1 else 0 := by
  rw [(sound_apply h x).arena.size, size_segments_apply, h.arena.size]
  omega

/-- What a step adds. -/
def stride (t : Turtle α) (length : α) : Skeleton α where
  nodes := #[t.reached length]
  segments := #[⟨t.pose.node, t.skeleton.nodes.size, length, t.pose.radius, t.gait.radiusAt t.pose.depth⟩]
  leaves := #[]

/-- The cursor knows the radius of the node below it, so a step need not look it up. -/
theorem skeleton_step {t : Turtle α} (h : t.Sound) (length : α) :
    (t.step length).skeleton = t.skeleton ++ t.stride length := by
  obtain ⟨m, hm, -, hradius, -⟩ := h.stands
  ext1
  · rw [nodes_step]
    rfl
  · rw [segments_step hm, ← hradius]
    rfl
  · exact Array.append_empty.symm

/-! ## The same trail but for the ids -/

namespace Carried

variable {f : Nat → Nat} {t t' : Turtle α}

theorem step (h : t.Carried f t') (hnext : f t.skeleton.nodes.size = t'.skeleton.nodes.size) (length : α) :
    (t.step length).Carried f (t'.step length) where
  gait := h.gait
  pose := by simp only [Turtle.step, Pose.renumber, h.pose, h.gait, hnext]
  saved := h.saved

theorem stride (h : t.Carried f t') (hnext : f t.skeleton.nodes.size = t'.skeleton.nodes.size) (length : α) :
    t'.stride length = (t.stride length).renumber f := by
  simp [Turtle.stride, Skeleton.renumber, Turtle.reached, Node.renumber, Segment.renumber, Pose.renumber, h.pose, h.gait,
    hnext]

/-- **A symbol adds the same but for the ids.** -/
theorem apply (h : t.Carried f t') (ht : t.Sound) (ht' : t'.Sound) (x : Symbol α)
    (hnext : x.tag = 'F' → f t.skeleton.nodes.size = t'.skeleton.nodes.size) :
    ∃ made, (t.apply x).Carried f (t'.apply x) ∧ (t.apply x).skeleton = t.skeleton ++ made ∧
      (t'.apply x).skeleton = t'.skeleton ++ made.renumber f := by
  have hnothing : ∀ s : Skeleton α, s = s ++ Skeleton.empty.renumber f := by simp
  unfold Turtle.apply
  cases hx : x.command with
  | forward =>
    have hnext := hnext (Symbol.command_eq_forward.mp hx)
    simp only [h.gait]
    refine ⟨t.stride _, h.step hnext _, skeleton_step ht _, ?_⟩
    rw [skeleton_step ht', h.stride hnext]
  | turn axis positive =>
    refine ⟨.empty, ⟨h.gait, ?_, h.saved⟩, (Skeleton.append_empty _).symm, hnothing t'.skeleton⟩
    simp only [h.gait, h.pose]
    rfl
  | push => exact ⟨.empty, h.push, (Skeleton.append_empty _).symm, hnothing t'.skeleton⟩
  | pop =>
    simp only [skeleton_pop]
    exact ⟨.empty, h.pop, (Skeleton.append_empty _).symm, hnothing t'.skeleton⟩
  | leaf =>
    refine ⟨t.bud _, ⟨h.gait, h.pose, h.saved⟩, skeleton_sprout t _, ?_⟩
    simp only [skeleton_sprout, h.bud]
  | idle => exact ⟨.empty, h, (Skeleton.append_empty _).symm, hnothing t'.skeleton⟩

/-- **A part of a sentence adds the same but for the ids,** if the ids of the nodes it makes correspond. -/
theorem foldl (h : t.Carried f t') (ht : t.Sound) (ht' : t'.Sound) (xs : List (Symbol α))
    (hnext : ∀ j < (xs.map Symbol.tag).count 'F', f (t.skeleton.nodes.size + j) = t'.skeleton.nodes.size + j) :
    (xs.foldl Turtle.apply t).Carried f (xs.foldl Turtle.apply t') ∧ t'.trail xs = (t.trail xs).renumber f := by
  -- both trails grow by the same pieces, so the induction keeps hold of what they have become
  suffices hmade : ∃ made, (xs.foldl Turtle.apply t).Carried f (xs.foldl Turtle.apply t') ∧
      (xs.foldl Turtle.apply t).skeleton = t.skeleton ++ made ∧
      (xs.foldl Turtle.apply t').skeleton = t'.skeleton ++ made.renumber f by
    obtain ⟨made, hcarried, hs, hs'⟩ := hmade
    exact ⟨hcarried, by rw [trail_of_skeleton hs, trail_of_skeleton hs']⟩
  induction xs generalizing t t' with
  | nil => exact ⟨.empty, h, by simp, by simp⟩
  | cons x xs ih =>
    rw [List.map_cons, List.count_cons] at hnext
    obtain ⟨first, hfirst, hs, hs'⟩ := h.apply ht ht' x fun hx => hnext 0 (by simp [hx])
    obtain ⟨rest, hrest, hr, hr'⟩ := ih hfirst (sound_apply ht x) (sound_apply ht' x) fun j hj => by
      rw [size_nodes_apply ht, size_nodes_apply ht']
      by_cases hx : x.tag = 'F'
      · have hlater := hnext (1 + j) (by simp [hx]; omega)
        simpa [hx, Nat.add_assoc] using hlater
      · simpa [hx] using hnext j (by omega)
    refine ⟨first ++ rest, hrest, ?_, ?_⟩
    · rw [List.foldl_cons, hr, hs, Skeleton.append_assoc]
    · rw [List.foldl_cons, hr', hs', Skeleton.renumber_append, Skeleton.append_assoc]

end Carried
end Turtle
end Arbor
