import Arbor.Proofs.Export.Merged
import Arbor.Proofs.Growth.Limit
import Arbor.Proofs.Leaf.Strip
import Arbor.Proofs.Tree.Stats

/-!
# When words can number the vertices of a tree

Vertices are numbered with 32-bit words, by arithmetic that drops what does not fit: nothing fails when there are too
many, but the triangles join other vertices than they should. The segments and leaves of an accepted plan are limited
(`Skeleton.size_le_of_plan`), but not the vertices of a ring or the rows of a leaf, so an accepted plan need not keep
within the words (`Tree.numbering_broad`).

`Tree.numbering` says for every plan what decides about it: branches, leaf, baked leaves and object file have the
triangles that whole numbers give (`Branch.faces`, `LeafShape.faces`, `Foliage.copies`, `Tree.faces`) exactly as long as
their vertices can be numbered. Rings of 1073 vertices and leaves of 1072 rows are always few enough.
-/

namespace Arbor

open Mesh

/-! ## Branches -/

namespace Branch

theorem uses_faces (n count : Nat) : Uses (faces n count) (2 * n * count) := by
  intro x
  have htube : (∃ t ∈ faces n count, x ∈ threeItems t) ↔ ∃ k < count, 2 * n * k ≤ x ∧ x < 2 * n * k + 2 * n := by
    simp only [faces, List.mem_flatMap, List.mem_range, ← Tube.mem_faces (n := n)]
    constructor
    · rintro ⟨t, ⟨k, hk, ht⟩, hx⟩
      exact ⟨k, hk, t, ht, hx⟩
    · rintro ⟨k, hk, t, ht, hx⟩
      exact ⟨t, ⟨k, hk, ht⟩, hx⟩
  rw [htube]
  constructor
  · rintro ⟨k, hk, -, hx⟩
    have hroom := Nat.mul_le_mul_left (2 * n) (Nat.succ_le_of_lt hk)
    rw [Nat.mul_succ] at hroom
    omega
  · intro hx
    -- vertex `x` stands on the tube of its quotient
    have hpos : 0 < 2 * n := Nat.pos_of_mul_pos_right (Nat.lt_of_le_of_lt (Nat.zero_le x) hx)
    have hdivision := Nat.div_add_mod x (2 * n)
    have hrest := Nat.mod_lt x hpos
    exact ⟨x / (2 * n), Nat.div_lt_of_lt_mul hx, by omega, by omega⟩

/-- **Branches have the triangles of their tubes exactly if words can number their vertices.** -/
theorem triangles_mesh_iff (s : Skeleton Float) (bark : Bark Float) :
    (mesh s bark).triangles = faces bark.radialSegments s.drawn.length ↔
      2 * bark.radialSegments * s.drawn.length ≤ 4294967296 := by
  refine ⟨(uses_faces _ _).le_of_triangles, fun h => ?_⟩
  rw [triangles_mesh s bark (by rwa [length_tubes]), length_tubes]

end Branch

/-! ## Files -/

/-- The triangles of a tree: those of its branches, and behind them those of all its leaves. -/
def Tree.faces (n segments rows leaves : Nat) : List (Nat × Nat × Nat) :=
  Branch.faces n segments ++
    countOn (2 * n * segments) (Foliage.copies (LeafShape.faces rows) (2 * (rows + 1)) leaves)

/-- **A file has the triangles of the tree exactly if words can number its vertices from one on.** -/
theorem Obj.faces_text_iff {t : Tree} {s : Skeleton Float} {bark : Bark Float} {shape : LeafShape Float} {f : Foliage}
    (hbranches : t.branches = Branch.mesh s bark) (hleaves : t.bakedLeaves = f.bake shape.mesh) :
    (items "f" (rows (text t))).map readFace =
        (Tree.faces bark.radialSegments s.drawn.length shape.rows f.bakedMatrices.length).map some ↔
      2 * bark.radialSegments * s.drawn.length + f.bakedMatrices.length * (2 * (shape.rows + 1)) < 4294967296 := by
  have huses := (Branch.uses_faces bark.radialSegments s.drawn.length).append
    (Foliage.uses_copies (LeafShape.uses_faces (LeafShape.one_le_rows shape)) f.bakedMatrices.length)
  constructor
  · intro h
    -- the last vertex is a corner of some face, and its number is one more
    by_contra hover
    obtain ⟨face, hface, hx⟩ := (huses 4294967295).mpr (by omega)
    have hmem : some face ∈ (items "f" (rows (text t))).map readFace := h ▸ List.mem_map_of_mem hface
    have := lt_of_mem_faces hmem _ hx
    omega
  · intro h
    have htubes := Branch.length_tubes s bark.textureScale
    have hfit : t.branches.Fits (2 * bark.radialSegments * s.drawn.length) := by
      rw [hbranches, ← htubes]
      exact Branch.fits_mesh s bark (by rw [htubes]; omega)
    obtain ⟨hfit', hcopies⟩ := LeafShape.fits_bake shape f (by omega)
    have hholds := holds_rows hfit (hleaves ▸ hfit') h
    rw [hholds.faces, triangles_append hfit (hleaves ▸ hfit') (by omega), hbranches,
      (Branch.triangles_mesh_iff s bark).mpr (by omega), hleaves, hcopies]
    rfl

/-! ## Trees -/

/-- Steps and leaf symbols are different symbols of the sentence. -/
theorem count_add_count_le (cs : List Char) : cs.count 'F' + cs.count 'L' ≤ cs.length := by
  induction cs with
  | nil => exact Nat.le_refl _
  | cons c cs ih =>
    simp only [List.count_cons, List.length_cons, beq_iff_eq]
    by_cases hF : c = 'F'
    · rw [if_pos hF, if_neg (by rw [hF]; decide)]
      omega
    · rw [if_neg hF]
      split
      all_goals omega

section

variable {p : Plan Float} {s : Skeleton Float} {symbols : Nat}

/-- An accepted plan has a limited number of segments and leaves. -/
theorem Skeleton.size_le_of_plan (h : p.skeleton = .ok (s, symbols)) :
    s.segments.size + s.leaves.size ≤ Plan.maxSymbols := by
  obtain ⟨sentence, hsentence, rfl, -⟩ := Plan.skeleton_eq_ok_iff.mp h
  have hlimit := Grammar.length_le_of_expandWithin p.grammar (Plan.sentence_eq_ok_iff.mp hsentence).2
  have hcount := count_add_count_le (sentence.map Symbol.tag)
  rw [List.length_map] at hcount
  rw [size_segments_ofSentence, size_leaves_ofSentence]
  exact Nat.le_trans hcount hlimit

/-- All segments of a plan are drawn. -/
theorem Skeleton.length_drawn_of_plan (h : p.skeleton = .ok (s, symbols)) : s.drawn.length = s.segments.size := by
  obtain ⟨sentence, -, rfl, -⟩ := Plan.skeleton_eq_ok_iff.mp h
  rw [length_drawn_ofSentence, size_segments_ofSentence]

/-- The skeleton of a plan is counted on its sentence. -/
theorem Skeleton.exists_of_counts (p : Plan Float) (symbols steps leaves : Nat)
    (h : p.sentence.toOption.map (fun sentence => (sentence.length, (sentence.map Symbol.tag).count 'F',
      (sentence.map Symbol.tag).count 'L')) = some (symbols, steps, leaves)) :
    ∃ s, p.skeleton = .ok (s, symbols) ∧ s.segments.size = steps ∧ s.leaves.size = leaves := by
  cases hsentence : p.sentence with
  | error e => rw [hsentence] at h; cases h
  | ok sentence =>
    rw [hsentence] at h
    simp only [Except.toOption, Option.map_some, Option.some.injEq, Prod.mk.injEq] at h
    obtain ⟨hlength, hsteps, hleaves⟩ := h
    exact ⟨_, Plan.skeleton_eq_ok_iff.mpr ⟨sentence, hsentence, rfl, hlength⟩,
      (size_segments_ofSentence p.gait sentence).trans hsteps, (size_leaves_ofSentence p.gait sentence).trans hleaves⟩

end

namespace Tree

/-- The leaves of a tree are the copies of its leaf mesh, if there are any. -/
theorem bakedLeaves_ofSkeleton (p : Plan Float) (s : Skeleton Float) (symbols : Nat) :
    (ofSkeleton p s symbols).bakedLeaves =
      (Foliage.ofLeaves p.scatter p.seed s.leaves.toList).bake p.leafShape.mesh := by
  have hleaf : (ofSkeleton p s symbols).leaf = if s.leaves.isEmpty then none else some p.leafShape.mesh := rfl
  unfold bakedLeaves
  rw [hleaf]
  by_cases hempty : s.leaves.isEmpty
  · have hnone := Foliage.length_bakedMatrices_ofLeaves p.scatter p.seed s.leaves.toList
    rw [if_pos hempty, Foliage.bake_of_length_eq_zero]
    · rfl
    · rw [hnone]
      exact Array.length_toList.trans (Array.isEmpty_iff_size_eq_zero.mp hempty)
  · rw [if_neg hempty]
    rfl

/-- **When words can number the vertices of a tree.** An accepted plan has no more than `Plan.maxSymbols` segments and
leaves. Its branches, its leaf, its baked leaves and its object file have the triangles that whole numbers give exactly
if the respective number of vertices is within the words, and all of them do with rings of 1073 vertices and leaves of
1072 rows, or fewer. -/
theorem numbering {p : Plan Float} {s : Skeleton Float} {symbols : Nat} (h : p.skeleton = .ok (s, symbols)) :
    let t := ofSkeleton p s symbols
    let n := p.bark.radialSegments
    let rows := p.leafShape.segments
    let segments := s.segments.size
    let leaves := s.leaves.size
    segments + leaves ≤ Plan.maxSymbols ∧
    (t.branches.triangles = Branch.faces n segments ↔ 2 * n * segments ≤ 4294967296) ∧
    (p.leafShape.mesh.triangles = LeafShape.faces rows ↔ 2 * (rows + 1) ≤ 4294967296) ∧
    (t.bakedLeaves.triangles = Foliage.copies (LeafShape.faces rows) (2 * (rows + 1)) leaves ↔
      leaves * (2 * (rows + 1)) ≤ 4294967296) ∧
    ((Obj.items "f" (Obj.rows (Obj.text t))).map Obj.readFace = (faces n segments rows leaves).map some ↔
      2 * n * segments + leaves * (2 * (rows + 1)) < 4294967296) ∧
    (n ≤ 1073 → rows ≤ 1072 →
      2 * (rows + 1) ≤ 4294967296 ∧ 2 * n * segments + leaves * (2 * (rows + 1)) < 4294967296) := by
  intro t n rows segments leaves
  have hlimit : segments + leaves ≤ Plan.maxSymbols := Skeleton.size_le_of_plan h
  obtain ⟨sentence, hsentence, -⟩ := Plan.skeleton_eq_ok_iff.mp h
  have hrows : p.leafShape.rows = rows :=
    Nat.max_eq_left (Plan.check_eq_ok_iff.mp (Plan.sentence_eq_ok_iff.mp hsentence).1).2.2.1
  have hdrawn : s.drawn.length = segments := Skeleton.length_drawn_of_plan h
  have hbaked : t.bakedLeaves = t.foliage.bake p.leafShape.mesh := bakedLeaves_ofSkeleton p s symbols
  have hcopies : t.foliage.bakedMatrices.length = leaves :=
    (Foliage.length_bakedMatrices_ofLeaves p.scatter p.seed _).trans Array.length_toList
  have hbranch := Branch.triangles_mesh_iff s p.bark
  have hleaf := LeafShape.triangles_mesh_iff p.leafShape
  have hbake := LeafShape.triangles_bake_iff p.leafShape t.foliage
  have hbranches : t.branches = Branch.mesh s p.bark := rfl
  have hfile := Obj.faces_text_iff hbranches hbaked
  rw [hdrawn] at hbranch hfile
  rw [hrows] at hleaf hbake hfile
  rw [hcopies] at hbake hfile
  rw [← hbaked] at hbake
  refine ⟨hlimit, hbranch, hleaf, hbake, hfile, fun hn hr => ⟨by omega, ?_⟩⟩
  -- together no more than `2 * 1073` vertices for each symbol
  have h1 : 2 * n * segments ≤ 2146 * segments := Nat.mul_le_mul_right _ (by omega)
  have h2 : leaves * (2 * (rows + 1)) ≤ leaves * 2146 := Nat.mul_le_mul_left _ (by omega)
  have h3 : Plan.maxSymbols = 2000000 := rfl
  omega

/-- Three steps and two leaves, drawn with eight vertices in a ring and three rows in a leaf. -/
def offshoot : Plan Float := .ofGrammar ⟨"F[+FL]FL", [], .standard⟩ 0

/-- The file of the offshoot has the triangles of a tree of this size. -/
theorem numbering_offshoot : ∃ s, offshoot.skeleton = .ok (s, 8) ∧ s.segments.size = 3 ∧ s.leaves.size = 2 ∧
    (Obj.items "f" (Obj.rows (Obj.text (ofSkeleton offshoot s 8)))).map Obj.readFace = (faces 8 3 3 2).map some := by
  obtain ⟨s, hs, hsegments, hleaves⟩ := Skeleton.exists_of_counts offshoot 8 3 2 (by decide +kernel)
  obtain ⟨-, -, -, -, hfile, hfew⟩ := numbering hs
  have hroom := (hfew (by decide) (by decide)).2
  refine ⟨s, hs, hsegments, hleaves, ?_⟩
  rw [hfile.mpr hroom, hsegments, hleaves]
  rfl

/-- One step, drawn with as many vertices in a ring as a setting can ask for. -/
def broad : Plan Float :=
  { Plan.ofGrammar ⟨"F", [], .standard⟩ 0 with bark := { Bark.standard with radialSegments := 4294967295 } }

/-- The broad plan is accepted and has a skeleton of one segment, but words cannot number its vertices, and its branches
have other triangles than they should. -/
theorem numbering_broad : broad.check = .ok () ∧ ∃ s, broad.skeleton = .ok (s, 1) ∧ s.segments.size = 1 ∧
    4294967296 < 2 * broad.bark.radialSegments * s.segments.size ∧
    (ofSkeleton broad s 1).branches.triangles ≠ Branch.faces broad.bark.radialSegments s.segments.size := by
  obtain ⟨s, hs, hsegments, -⟩ := Skeleton.exists_of_counts broad 1 1 0 (by decide +kernel)
  have hover : 4294967296 < 2 * broad.bark.radialSegments * s.segments.size := by
    rw [hsegments]
    decide
  refine ⟨Except.eq_ok_of_toBool (by decide +kernel), s, hs, hsegments, hover, fun hsame => ?_⟩
  rw [← Skeleton.length_drawn_of_plan hs] at hover hsame
  exact absurd ((Branch.triangles_mesh_iff s broad.bark).mp hsame) (Nat.not_le.mpr hover)

end Tree
end Arbor
