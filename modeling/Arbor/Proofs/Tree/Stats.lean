import Arbor.Proofs.Mesh.Count
import Arbor.Proofs.Plan.Check
import Arbor.Proofs.Walk.Leaves

/-!
# The counts of a tree

The counts that come with a tree are those of its sentence: a segment and two triangles around it for each step, a leaf
for each leaf symbol (`Tree.stats_exact`). The number of triangles, counted as a product while the tree is made, is the
number of triangles of the branches and of the baked leaves.
-/

namespace Arbor

open scoped Scalar

/-! ## The skeleton of a sentence -/

namespace Skeleton

variable {α : Type} [Scalar α]

/-- All segments of a tree in order are drawn. -/
theorem Arena.drawn {gait : Gait α} {s : Skeleton α} (h : s.Arena gait) : s.drawn = s.segments.toList := by
  refine List.filter_eq_self.mpr fun seg hseg => ?_
  obtain ⟨k, hk, rfl⟩ := Array.mem_iff_getElem.mp (Array.mem_toList_iff.mp hseg)
  obtain ⟨m, n, hm, hn, hfinish, -⟩ := h.segment k _ (Array.getElem?_eq_getElem hk)
  rw [hasEnds, hm, hfinish, hn]
  rfl

variable (gait : Gait α) (sentence : List (Symbol α))

theorem size_segments_ofSentence : (ofSentence gait sentence).segments.size = (sentence.map Symbol.tag).count 'F' :=
  Turtle.size_segments_walk gait sentence

theorem size_nodes_ofSentence : (ofSentence gait sentence).nodes.size = (sentence.map Symbol.tag).count 'F' + 1 :=
  (size_nodes_annotate _).trans (Turtle.size_nodes_walk gait sentence)

theorem size_leaves_ofSentence : (ofSentence gait sentence).leaves.size = (sentence.map Symbol.tag).count 'L' :=
  Turtle.size_leaves_walk gait sentence

/-- A segment is drawn for each step. -/
theorem length_drawn_ofSentence : (ofSentence gait sentence).drawn.length = (sentence.map Symbol.tag).count 'F' := by
  have harena := (Turtle.sound_walk gait sentence).arena.annotate
  rw [show (ofSentence gait sentence).drawn = (ofSentence gait sentence).segments.toList from harena.drawn,
    Array.length_toList, size_segments_ofSentence]

end Skeleton

/-! ## Trees -/

namespace Tree

/-- Baked or counted, the leaves have two triangles for each row of the leaf mesh. -/
theorem triangleCount_leaves (p : Plan Float) (skeleton : Skeleton Float) (symbols : Nat) :
    let t := ofSkeleton p skeleton symbols
    (t.leaf.map Mesh.triangleCount).getD 0 * t.foliage.count = 2 * p.leafShape.rows * skeleton.leaves.size ∧
    t.bakedLeaves.triangleCount = 2 * p.leafShape.rows * skeleton.leaves.size := by
  intro t
  have hleaf : t.leaf = if skeleton.leaves.isEmpty then none else some p.leafShape.mesh := rfl
  have hfoliage : t.foliage = .ofLeaves p.scatter p.seed skeleton.leaves.toList := rfl
  unfold bakedLeaves
  rw [hleaf, hfoliage, Foliage.count_ofLeaves, Array.length_toList]
  by_cases hempty : skeleton.leaves.isEmpty
  · rw [if_pos hempty, Array.isEmpty_iff_size_eq_zero.mp hempty]
    exact ⟨by simp, by simp [Mesh.triangleCount, Mesh.empty]⟩
  · have hwhole : p.leafShape.mesh.indices.size % 3 = 0 := by rw [LeafShape.size_indices, Nat.mul_mod_right]
    simp only [if_neg hempty, Option.map_some, Option.getD_some]
    rw [Foliage.triangleCount_bake _ hwhole, Foliage.length_bakedMatrices_ofLeaves, LeafShape.triangleCount_mesh,
      Array.length_toList, Nat.mul_comm skeleton.leaves.size]
    exact ⟨rfl, rfl⟩

/-- **The counts of a tree are exact.** With the numbers of steps and of leaf symbols of its sentence: there is a segment
for each step and one node more, a leaf and a placed copy of the leaf mesh for each leaf symbol, and there is a leaf mesh
unless there are no leaves. The triangles are two for each vertex of a ring of each segment and two for each row of each
leaf, and these are the triangles of the branches together with those of the baked leaves. -/
theorem stats_exact {p : Plan Float} {t : Tree} (h : Tree.ofPlan p = .ok t) :
    ∃ sentence, p.sentence = .ok sentence ∧
      let steps := (sentence.map Symbol.tag).count 'F'
      let leaves := (sentence.map Symbol.tag).count 'L'
      t.stats.symbols = sentence.length ∧ t.stats.segments = steps ∧ t.stats.nodes = steps + 1 ∧
      t.stats.leaves = leaves ∧ t.foliage.count = leaves ∧ (t.leaf = none ↔ leaves = 0) ∧
      t.stats.triangles = 2 * p.bark.radialSegments * steps + 2 * p.leafShape.segments * leaves ∧
      t.stats.triangles = t.branches.triangleCount + t.bakedLeaves.triangleCount := by
  obtain ⟨sentence, hsentence, rfl⟩ := ofPlan_eq_ok_iff.mp h
  refine ⟨sentence, hsentence, ?_⟩
  intro steps leaves
  let s := Skeleton.ofSentence p.gait sentence
  have hsegments : s.segments.size = steps := Skeleton.size_segments_ofSentence p.gait sentence
  have hnodes : s.nodes.size = steps + 1 := Skeleton.size_nodes_ofSentence p.gait sentence
  have hleaves : s.leaves.size = leaves := Skeleton.size_leaves_ofSentence p.gait sentence
  have hcount : (Foliage.ofLeaves p.scatter p.seed s.leaves.toList).count = leaves := by
    rw [Foliage.count_ofLeaves, Array.length_toList, hleaves]
  have hnone : (if s.leaves.isEmpty then none else some p.leafShape.mesh) = none ↔ leaves = 0 := by
    rw [← hleaves, ← Array.isEmpty_iff_size_eq_zero]
    by_cases hempty : s.leaves.isEmpty
    · rw [if_pos hempty]
      exact iff_of_true rfl hempty
    · rw [if_neg hempty]
      exact iff_of_false nofun hempty
  have hrows : p.leafShape.rows = p.leafShape.segments :=
    Nat.max_eq_left (Plan.check_eq_ok_iff.mp (Plan.sentence_eq_ok_iff.mp hsentence).1).2.2.1
  have hbranches : (Branch.mesh s p.bark).triangleCount = 2 * p.bark.radialSegments * steps := by
    rw [Branch.triangleCount_mesh, Skeleton.length_drawn_ofSentence]
  obtain ⟨hcounted, hbaked⟩ := triangleCount_leaves p s sentence.length
  rw [hrows, hleaves] at hcounted hbaked
  have htriangles : (ofSkeleton p s sentence.length).stats.triangles =
      2 * p.bark.radialSegments * steps + 2 * p.leafShape.segments * leaves := by
    rw [← hbranches, ← hcounted]
    rfl
  refine ⟨rfl, hsegments, hnodes, hleaves, hcount, hnone, htriangles, ?_⟩
  rw [htriangles, hbaked]
  exact congrArg (· + _) hbranches.symm

/-- Two generations of a branch with leaves, with half of each number left to chance. -/
def sapling : Plan Float :=
  .ofGrammar ⟨"F[+L]F", [⟨'F', 1, .literal "F[-FL]"⟩], { Habit.standard with variability := 0.5 }⟩ 2

/-- The sapling has 36 symbols, eight of them steps and seven of them leaves: with eight vertices in a ring and three
rows in a leaf there are 128 triangles around the steps and 42 in the leaves. -/
theorem stats_exact_sapling : ∃ t, Tree.ofPlan sapling = .ok t ∧ t.stats.symbols = 36 ∧ t.stats.segments = 8 ∧
    t.stats.nodes = 9 ∧ t.stats.leaves = 7 ∧ t.foliage.count = 7 ∧ t.leaf ≠ none ∧ t.stats.triangles = 170 ∧
    t.branches.triangleCount + t.bakedLeaves.triangleCount = 170 := by
  have hcounts : sapling.sentence.toOption.map (fun sentence =>
      (sentence.length, (sentence.map Symbol.tag).count 'F', (sentence.map Symbol.tag).count 'L')) =
        some (36, 8, 7) := by decide +kernel
  cases hsentence : sapling.sentence with
  | error e =>
    rw [hsentence] at hcounts
    cases hcounts
  | ok sentence =>
    obtain ⟨t, ht⟩ : ∃ t, Tree.ofPlan sapling = .ok t := ⟨_, ofPlan_eq_ok_iff.mpr ⟨sentence, hsentence, rfl⟩⟩
    obtain ⟨sentence', hsentence', hsymbols, hsegments, hnodes, hleaves, hcount, hnone, htriangles, hemitted⟩ :=
      stats_exact ht
    rw [hsentence] at hsentence' hcounts
    cases hsentence'
    simp only [Except.toOption, Option.map_some, Option.some.injEq, Prod.mk.injEq] at hcounts
    obtain ⟨hlength, hF, hL⟩ := hcounts
    rw [hF, hL] at htriangles
    have htotal : t.stats.triangles = 170 := htriangles
    exact ⟨t, ht, hsymbols.trans hlength, hsegments.trans hF, hnodes.trans (congrArg (· + 1) hF), hleaves.trans hL,
      hcount.trans hL, fun h => absurd (hL.symm.trans (hnone.mp h)) (by decide), htotal, hemitted.symm.trans htotal⟩

end Tree
end Arbor
