import Arbor.Proofs.Command
import Arbor.Proofs.Skeleton.Annotation
import Arbor.Proofs.Walk.Basic

/-!
# The tree that a walk leaves behind

`Skeleton.Arena` says that the nodes of a skeleton, in the order in which they were made, form a tree that grows away
from node zero, and that segment `k` is the one that leads to node `k + 1`. Hence whoever goes from parent to parent
reaches node zero (`Arena.ancestor`).

A walk keeps this because of what it has in hand: the cursor and all saved places stand on nodes that exist, no deeper
than they are themselves (`Pose.Stands`), and depths count the saved places (`Turtle.Sound`). Every symbol keeps it,
brackets that close nothing included (`sound_apply`); `walk_arena` reads it off.
-/

namespace Arbor

open scoped Scalar

variable {α : Type} [Scalar α]

/-! ## Trees in order -/

namespace Skeleton

/-- The nodes form a tree in the order in which they were made, and each segment leads to the next node. -/
structure Arena (gait : Gait α) (s : Skeleton α) : Prop where
  id_eq : ∀ i n, s.node? i = some n → n.id = i
  root : ∃ n, s.node? 0 = some n ∧ n.parent = none ∧ n.depth = 0
  parent : ∀ i n, 0 < i → s.node? i = some n →
    ∃ p m, n.parent = some p ∧ p < i ∧ s.node? p = some m ∧ m.depth ≤ n.depth
  radius : ∀ i n, 0 < i → s.node? i = some n → n.radius = gait.radiusAt n.depth
  segment : ∀ k seg, s.segments[k]? = some seg →
    ∃ m n, s.node? seg.start = some m ∧ s.node? (k + 1) = some n ∧ seg.finish = k + 1 ∧
      n.parent = some seg.start ∧ seg.startRadius = m.radius ∧ seg.finishRadius = n.radius
  size : s.nodes.size = s.segments.size + 1

/-- The node that is `k` parents above node `i`. -/
def ancestor? {α : Type} (s : Skeleton α) : (k i : Nat) → Option Nat
  | 0, i => some i
  | k + 1, i => (s.node? i).bind Node.parent >>= s.ancestor? k

theorem node?_of_lt {α : Type} {s : Skeleton α} {i : Nat} (h : i < s.nodes.size) : ∃ n, s.node? i = some n :=
  ⟨s.nodes[i], Array.getElem?_eq_getElem h⟩

theorem lt_of_node? {α : Type} {s : Skeleton α} {i : Nat} {n : Node α} (h : s.node? i = some n) : i < s.nodes.size :=
  (Array.getElem?_eq_some_iff.mp h).1

/-- Whoever goes from parent to parent reaches node zero. -/
theorem Arena.ancestor {gait : Gait α} {s : Skeleton α} (hs : s.Arena gait) :
    ∀ i, i < s.nodes.size → ∃ k, s.ancestor? k i = some 0 := by
  intro i
  induction i using Nat.strongRecOn with
  | ind i ih =>
    intro hi
    rcases Nat.eq_zero_or_pos i with rfl | hpos
    · exact ⟨0, rfl⟩
    · obtain ⟨n, hn⟩ := node?_of_lt hi
      obtain ⟨p, m, hp, hlt, -, -⟩ := hs.parent i n hpos hn
      obtain ⟨k, hk⟩ := ih p hlt (by omega)
      exact ⟨k + 1, by simp [ancestor?, hn, hp, hk]⟩

/-- The marks do not matter for the tree. -/
theorem Arena.annotate {gait : Gait α} {s : Skeleton α} (hs : s.Arena gait) : s.annotate.Arena gait where
  id_eq i n hn := by
    rw [node?_annotate] at hn
    obtain ⟨m, hm, rfl⟩ := Option.map_eq_some_iff.mp hn
    exact hs.id_eq i m hm
  root := by
    obtain ⟨n, hn, hp, hd⟩ := hs.root
    exact ⟨_, node?_annotate_some hn, hp, hd⟩
  parent i n hi hn := by
    rw [node?_annotate] at hn
    obtain ⟨n', hn', rfl⟩ := Option.map_eq_some_iff.mp hn
    obtain ⟨p, m, hp, hlt, hm, hd⟩ := hs.parent i n' hi hn'
    exact ⟨p, _, hp, hlt, node?_annotate_some hm, hd⟩
  radius i n hi hn := by
    rw [node?_annotate] at hn
    obtain ⟨m, hm, rfl⟩ := Option.map_eq_some_iff.mp hn
    exact hs.radius i m hi hm
  segment k seg hk := by
    obtain ⟨m, n, hm, hn, hrest⟩ := hs.segment k seg hk
    exact ⟨_, _, node?_annotate_some hm, node?_annotate_some hn, hrest⟩
  size := by rw [size_nodes_annotate, hs.size, segments_annotate]

end Skeleton

/-! ## What the turtle has in hand -/

/-- The pose stands on a node that exists, at its place and with its radius, and no less deep than it. -/
def Pose.Stands {α : Type} (p : Pose α) (s : Skeleton α) : Prop :=
  ∃ n, s.node? p.node = some n ∧ p.position = n.position ∧ p.radius = n.radius ∧ n.depth ≤ p.depth

theorem Pose.Stands.lt {α : Type} {p : Pose α} {s : Skeleton α} (h : p.Stands s) : p.node < s.nodes.size := by
  obtain ⟨n, hn, -⟩ := h
  exact Skeleton.lt_of_node? hn

namespace Turtle

/-- **The invariant of a walk.** The cursor and the saved places stand on the tree; depths count the saved places. -/
structure Sound (t : Turtle α) : Prop where
  arena : t.skeleton.Arena t.gait
  stands : t.pose.Stands t.skeleton
  saved : ∀ p ∈ t.saved, p.Stands t.skeleton
  depth : t.pose.depth = t.saved.length
  depths : t.saved.map Pose.depth = (List.range t.saved.length).reverse

theorem sound_start (gait : Gait α) : (start gait).Sound where
  arena :=
    { id_eq := fun i n hn => by
        obtain ⟨hi, rfl⟩ := Array.getElem?_eq_some_iff.mp hn
        obtain rfl : i = 0 := Nat.lt_one_iff.mp hi
        rfl
      root := ⟨_, rfl, rfl, rfl⟩
      parent := fun i n hpos hn => absurd (Skeleton.lt_of_node? hn) (Nat.not_lt.mpr hpos)
      radius := fun i n hpos hn => absurd (Skeleton.lt_of_node? hn) (Nat.not_lt.mpr hpos)
      segment := fun k seg hk => by cases hk
      size := rfl }
  stands := ⟨_, rfl, rfl, rfl, Nat.le_refl 0⟩
  saved := fun p hp => by cases hp
  depth := rfl
  depths := rfl

/-- A place that stands on the tree still does so after a step. -/
theorem stands_step {t : Turtle α} {p : Pose α} (h : p.Stands t.skeleton) (length : α) :
    p.Stands (t.step length).skeleton := by
  obtain ⟨n, hn, hrest⟩ := h
  exact ⟨n, node?_step_old hn length, hrest⟩

/-- The segment of a step runs from the node below the turtle to the new one. -/
theorem segments_step {t : Turtle α} {m : Node α} (h : t.skeleton.node? t.pose.node = some m) (length : α) :
    (t.step length).skeleton.segments = t.skeleton.segments.push
      ⟨t.pose.node, t.skeleton.nodes.size, length, m.radius, t.gait.radiusAt t.pose.depth⟩ := by
  simp only [step, h, Option.map_some, Option.getD_some]

/-- A step adds a child of the node below the turtle, and its segment. -/
theorem arena_step {t : Turtle α} (ha : t.skeleton.Arena t.gait) (hs : t.pose.Stands t.skeleton) (length : α) :
    (t.step length).skeleton.Arena t.gait := by
  obtain ⟨m, hm, -, -, hdepth⟩ := hs
  have hlt := Skeleton.lt_of_node? hm
  refine ⟨fun i n hn => ?_, ?_, fun i n hi hn => ?_, fun i n hi hn => ?_, fun k seg hk => ?_, ?_⟩
  · rcases node?_step_cases hn with ⟨rfl, rfl⟩ | hn
    · rfl
    · exact ha.id_eq i n hn
  · obtain ⟨r, hr, hrest⟩ := ha.root
    exact ⟨r, node?_step_old hr length, hrest⟩
  · rcases node?_step_cases hn with ⟨rfl, rfl⟩ | hn
    · exact ⟨t.pose.node, m, rfl, hlt, node?_step_old hm length, hdepth⟩
    · obtain ⟨p, q, hp, hlt, hq, hd⟩ := ha.parent i n hi hn
      exact ⟨p, q, hp, hlt, node?_step_old hq length, hd⟩
  · rcases node?_step_cases hn with ⟨-, rfl⟩ | hn
    · rfl
    · exact ha.radius i n hi hn
  · rw [segments_step hm, Array.getElem?_push] at hk
    split at hk
    · cases hk
      have hnew := node?_step_new t length
      rw [ha.size] at hnew
      subst k
      exact ⟨m, _, node?_step_old hm length, hnew, ha.size, rfl, rfl, rfl⟩
    · obtain ⟨a, b, ha', hb, hrest⟩ := ha.segment k seg hk
      exact ⟨a, b, node?_step_old ha' length, node?_step_old hb length, hrest⟩
  · rw [nodes_step, segments_step hm, Array.size_push, Array.size_push, ha.size]

theorem sound_step {t : Turtle α} (h : t.Sound) (length : α) : (t.step length).Sound where
  arena := arena_step h.arena h.stands length
  stands := ⟨_, node?_step_new t length, rfl, rfl, Nat.le_refl _⟩
  saved p hp := stands_step (h.saved p hp) length
  depth := h.depth
  depths := h.depths

theorem sound_push {t : Turtle α} (h : t.Sound) : t.push.Sound where
  arena := h.arena
  stands := by
    obtain ⟨n, hn, hp, hr, hd⟩ := h.stands
    exact ⟨n, hn, hp, hr, Nat.le_succ_of_le hd⟩
  saved p hp := by
    rcases List.mem_cons.mp hp with rfl | hp
    · exact h.stands
    · exact h.saved p hp
  depth := congrArg (· + 1) h.depth
  depths := by
    show t.pose.depth :: t.saved.map Pose.depth = (List.range (t.saved.length + 1)).reverse
    rw [h.depth, h.depths, List.range_succ, List.reverse_append]
    rfl

theorem sound_pop {t : Turtle α} (h : t.Sound) : t.pop.Sound := by
  unfold pop
  cases hs : t.saved with
  | nil => exact h
  | cons p rest =>
    have hdepths := h.depths
    rw [hs, List.length_cons, List.range_succ, List.reverse_append, List.map_cons] at hdepths
    obtain ⟨hp, hrest⟩ := List.cons.inj hdepths
    exact ⟨h.arena, h.saved p (by rw [hs]; exact List.mem_cons_self),
      fun q hq => h.saved q (by rw [hs]; exact List.mem_cons_of_mem _ hq), hp, hrest⟩

theorem sound_turn {t : Turtle α} (h : t.Sound) (axis : Axis) (angle : α) :
    Sound { t with pose := t.pose.turn axis angle } := ⟨h.arena, h.stands, h.saved, h.depth, h.depths⟩

theorem sound_sprout {t : Turtle α} (h : t.Sound) (size : α) : (t.sprout size).Sound :=
  ⟨{ h.arena with }, h.stands, h.saved, h.depth, h.depths⟩

/-- **Every symbol keeps the invariant.** -/
theorem sound_apply {t : Turtle α} (h : t.Sound) (s : Symbol α) : (t.apply s).Sound :=
  apply_induction s (fun _ => sound_step h _) (fun axis _ _ => sound_turn h axis) (fun _ => sound_push h)
    (fun _ => sound_pop h) (fun _ => sound_sprout h _) (fun _ => h)

theorem sound_walk (gait : Gait α) (sentence : List (Symbol α)) : (walk gait sentence).Sound :=
  walk_induction (P := fun _ t => t.Sound) (sound_start gait) (fun _ _ s h => sound_apply h s) sentence

/-! ## Reading it off -/

/-- A step makes one segment; nothing else makes any. -/
theorem size_segments_apply (t : Turtle α) (s : Symbol α) :
    (t.apply s).skeleton.segments.size = t.skeleton.segments.size + if s.tag = 'F' then 1 else 0 := by
  by_cases h : s.command = .forward
  · rw [apply_forward t h, if_pos (Symbol.command_eq_forward.mp h)]
    exact Array.size_push _
  · rw [(made_apply t h).2, if_neg fun hs => h (Symbol.command_eq_forward.mpr hs), Nat.add_zero]

/-- A walk has made as many segments as it has taken steps. -/
theorem size_segments_walk (gait : Gait α) (sentence : List (Symbol α)) :
    (walk gait sentence).skeleton.segments.size = (sentence.map Symbol.tag).count 'F' := by
  refine walk_induction (P := fun xs t => t.skeleton.segments.size = (xs.map Symbol.tag).count 'F') rfl
    (fun xs t s ih => ?_) sentence
  rw [size_segments_apply, ih, List.map_append, List.count_append, List.map_singleton, List.count_singleton]
  simp only [beq_iff_eq]

/-- **The tree of a walk.** After every symbol, and once the ends and forks are marked, the skeleton is a tree in order
whose every node leads back to node zero, with a segment for each step and one node more; the cursor and every saved
place name a node of it. -/
theorem walk_arena (gait : Gait α) (sentence : List (Symbol α)) :
    let t := walk gait sentence
    (∀ s ∈ [t.skeleton, .ofSentence gait sentence],
      s.Arena gait ∧ (∀ i < s.nodes.size, ∃ k, s.ancestor? k i = some 0) ∧
        s.segments.size = (sentence.map Symbol.tag).count 'F' ∧
        s.nodes.size = (sentence.map Symbol.tag).count 'F' + 1) ∧
    t.pose.node < t.skeleton.nodes.size ∧ ∀ p ∈ t.saved, p.node < t.skeleton.nodes.size := by
  have hsound := sound_walk gait sentence
  have harena := hsound.arena
  rw [gait_walk] at harena
  have hsegments := size_segments_walk gait sentence
  refine ⟨fun s hs => ?_, hsound.stands.lt, fun p hp => (hsound.saved p hp).lt⟩
  have hs' : s.Arena gait ∧ s.segments.size = (sentence.map Symbol.tag).count 'F' := by
    simp only [List.mem_cons, List.not_mem_nil, or_false] at hs
    rcases hs with rfl | rfl
    · exact ⟨harena, hsegments⟩
    · exact ⟨harena.annotate, hsegments⟩
  exact ⟨hs'.1, hs'.1.ancestor, hs'.2, by rw [hs'.1.size, hs'.2]⟩

end Turtle
end Arbor
