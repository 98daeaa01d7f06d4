import Arbor.Proofs.Walk.Arena

/-!
# Where a walk puts things

The cursor repeats what is stored at the node it stands on, and each saved place repeats what is stored at its own
(`Turtle.Sound`). So a segment made after a return, from a place saved arbitrarily long before, still starts where its
first node is: `Skeleton.Laid` says that every segment leads from its first node straight ahead to its second, and that
every leaf sits on a node. A walk keeps this (`laid_walk`); `walk_coherent` collects what follows.

All equations are between the very same numbers, with no rule of arithmetic in between.
-/

namespace Arbor

variable {α : Type} [Scalar α]

namespace Skeleton

/-- Every segment leads straight ahead between its nodes, and every leaf sits on a node. -/
structure Laid (s : Skeleton α) : Prop where
  segment : ∀ seg ∈ s.segments, ∃ m n, s.node? seg.start = some m ∧ s.node? seg.finish = some n ∧
    n.position = m.position + n.orientation.heading.scale seg.length
  leaf : ∀ l ∈ s.leaves, ∃ i n, s.node? i = some n ∧ l.position = n.position

/-- The marks do not matter for the places. -/
theorem Laid.annotate {s : Skeleton α} (h : s.Laid) : s.annotate.Laid where
  segment seg hseg := by
    rw [segments_annotate] at hseg
    obtain ⟨m, n, hm, hn, hpos⟩ := h.segment seg hseg
    exact ⟨_, _, node?_annotate_some hm, node?_annotate_some hn, hpos⟩
  leaf l hl := by
    rw [leaves_annotate] at hl
    obtain ⟨i, n, hn, hpos⟩ := h.leaf l hl
    exact ⟨i, _, node?_annotate_some hn, hpos⟩

end Skeleton

namespace Turtle

/-! ## Symbols -/

theorem laid_start (gait : Gait α) : (start gait).skeleton.Laid where
  segment seg hseg := absurd hseg (Array.not_mem_empty seg)
  leaf l hl := absurd hl (Array.not_mem_empty l)

/-- The new segment starts at the node below the turtle, which is where the turtle is. -/
theorem laid_step {t : Turtle α} (hs : t.pose.Stands t.skeleton) (h : t.skeleton.Laid) (length : α) :
    (t.step length).skeleton.Laid := by
  obtain ⟨m, hm, hpos, -, -⟩ := hs
  refine ⟨fun seg hseg => ?_, fun l hl => ?_⟩
  · rw [segments_step hm] at hseg
    rcases Array.mem_push.mp hseg with hseg | rfl
    · obtain ⟨a, b, ha, hb, hab⟩ := h.segment seg hseg
      exact ⟨a, b, node?_step_old ha length, node?_step_old hb length, hab⟩
    · refine ⟨m, t.reached length, node?_step_old hm length, node?_step_new t length, ?_⟩
      rw [← hpos]; rfl
  · obtain ⟨i, n, hn, hl⟩ := h.leaf l hl
    exact ⟨i, n, node?_step_old hn length, hl⟩

/-- A leaf is put where the turtle is, which is at the node below it. -/
theorem laid_sprout {t : Turtle α} (hs : t.pose.Stands t.skeleton) (h : t.skeleton.Laid) (size : α) :
    (t.sprout size).skeleton.Laid where
  segment := h.segment
  leaf l hl := by
    rcases Array.mem_push.mp hl with hl | rfl
    · exact h.leaf l hl
    · obtain ⟨n, hn, hpos, -⟩ := hs
      exact ⟨t.pose.node, n, hn, hpos⟩

/-- **Every symbol puts things in their place.** -/
theorem laid_apply {t : Turtle α} (hs : t.Sound) (h : t.skeleton.Laid) (s : Symbol α) : (t.apply s).skeleton.Laid :=
  apply_induction (P := fun t' => t'.skeleton.Laid) s (fun _ => laid_step hs.stands h _) (fun _ _ _ _ => h)
    (fun _ => h) (fun _ => by rw [skeleton_pop]; exact h) (fun _ => laid_sprout hs.stands h _) (fun _ => h)

/-! ## Walks -/

theorem laid_walk (gait : Gait α) (sentence : List (Symbol α)) : (walk gait sentence).skeleton.Laid :=
  (walk_induction (P := fun _ t => t.Sound ∧ t.skeleton.Laid) ⟨sound_start gait, laid_start gait⟩
    (fun _ _ s h => ⟨sound_apply h.1 s, laid_apply h.1 h.2 s⟩) sentence).2

/-- The places saved first are the least deep. -/
theorem Sound.depth_saved {t : Turtle α} (h : t.Sound) {i : Nat} {p : Pose α} (hp : t.saved.reverse[i]? = some p) :
    p.depth = i := by
  have hi : i < t.saved.length := by
    have := (List.getElem?_eq_some_iff.mp hp).1
    rwa [List.length_reverse] at this
  have hdepths : (t.saved.reverse.map Pose.depth)[i]? = some i := by
    rw [List.map_reverse, h.depths, List.reverse_reverse, List.getElem?_range hi]
  rw [List.getElem?_map, hp] at hdepths
  exact Option.some.inj hdepths

/-- **The cursor and the saved places agree with the tree, and so do all segments and leaves.** After every symbol the
cursor and each saved place have the position and the radius of the node they name, and their depths are the number of
places saved below them. In the finished skeleton each segment leads from its start by its length along the heading of
its end, and each leaf sits on a node. -/
theorem walk_coherent (gait : Gait α) (sentence : List (Symbol α)) :
    let t := walk gait sentence
    let s := Skeleton.ofSentence gait sentence
    (∀ p ∈ t.pose :: t.saved,
      ∃ n, t.skeleton.node? p.node = some n ∧ p.position = n.position ∧ p.radius = n.radius) ∧
    t.pose.depth = t.saved.length ∧
    (∀ (i : Nat) (p : Pose α), t.saved.reverse[i]? = some p → p.depth = i) ∧
    (∀ seg ∈ s.segments, ∃ m n, s.node? seg.start = some m ∧ s.node? seg.finish = some n ∧
      n.position = m.position + (n.orientation.rotate .forward).scale seg.length) ∧
    ∀ l ∈ s.leaves, ∃ n ∈ s.nodes, l.position = n.position := by
  have hsound := sound_walk gait sentence
  have hlaid := (laid_walk gait sentence).annotate
  refine ⟨fun p hp => ?_, hsound.depth, fun i p hp => hsound.depth_saved hp, hlaid.segment, fun l hl => ?_⟩
  · have hstands : p.Stands (walk gait sentence).skeleton := by
      rcases List.mem_cons.mp hp with rfl | hp
      · exact hsound.stands
      · exact hsound.saved p hp
    obtain ⟨n, hn, hpos, hr, -⟩ := hstands
    exact ⟨n, hn, hpos, hr⟩
  · obtain ⟨i, n, hn, hpos⟩ := hlaid.leaf l hl
    exact ⟨n, Array.mem_of_getElem? hn, hpos⟩

end Turtle
end Arbor
