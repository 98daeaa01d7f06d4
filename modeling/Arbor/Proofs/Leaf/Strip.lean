import Arbor.Leaf.Shape
import Arbor.Proofs.Mesh.Slots
import Mathlib.Data.List.Basic
import Mathlib.Data.List.Induction

/-!
# The strip of a leaf and its copies

A leaf of `rows` quads has `2 * (rows + 1)` vertices (`LeafShape.length_vertices`), and baking copies them once for every
transform. What the triangles are is worked out with whole numbers (`LeafShape.faces`, `Foliage.copies`); the meshes have
these triangles exactly as long as words can number the vertices (`LeafShape.triangles_mesh_iff`,
`LeafShape.triangles_bake_iff`).
-/

namespace Arbor

open Mesh

/-! ## One leaf -/

namespace LeafShape

/-- The triangles of a strip of quads. -/
def faces (rows : Nat) : List (Nat × Nat × Nat) :=
  (List.range rows).flatMap fun r => [(2 * r, 2 * r + 1, 2 * r + 2), (2 * r + 1, 2 * r + 3, 2 * r + 2)]

theorem uses_faces {rows : Nat} (h : 1 ≤ rows) : Uses (faces rows) (2 * (rows + 1)) := by
  intro x
  constructor
  · rintro ⟨t, ht, hx⟩
    obtain ⟨r, hr, ht⟩ := List.mem_flatMap.mp ht
    have hlt := List.mem_range.mp hr
    simp only [List.mem_cons, List.not_mem_nil, or_false] at ht
    rcases ht with rfl | rfl
    all_goals
      simp only [threeItems, List.mem_cons, List.not_mem_nil, or_false] at hx
      omega
  · intro hx
    -- the row that starts at `x`, or the last one for the two vertices at the tip
    have hmem (r : Nat) (hr : r < rows) : (2 * r, 2 * r + 1, 2 * r + 2) ∈ faces rows ∧
        (2 * r + 1, 2 * r + 3, 2 * r + 2) ∈ faces rows := by
      constructor
      all_goals exact List.mem_flatMap.mpr ⟨r, List.mem_range.mpr hr, by simp⟩
    rcases Nat.lt_or_ge x (2 * rows) with hlow | htip
    · refine ⟨_, (hmem (x / 2) (by omega)).1, ?_⟩
      simp only [threeItems, List.mem_cons]
      omega
    · refine ⟨_, (hmem (rows - 1) (by omega)).2, ?_⟩
      simp only [threeItems, List.mem_cons]
      omega

theorem toNat_indices {rows : Nat} (h : 2 * (rows + 1) ≤ 4294967296) :
    (indices rows).map UInt32.toNat = (faces rows).flatMap threeItems := by
  rw [indices, faces, List.map_flatMap, List.flatMap_assoc]
  refine List.flatMap_congr fun r hr => ?_
  have hlt := List.mem_range.mp hr
  have hfirst : (UInt32.ofNat r * 2).toNat = 2 * r := by
    rw [UInt32.toNat_mul, UInt32.toNat_ofNat']
    show r % 2 ^ 32 * 2 % 2 ^ 32 = 2 * r
    omega
  have hnext (k : Nat) (hk : k < 4) : (UInt32.ofNat r * 2 + UInt32.ofNat k).toNat = 2 * r + k := by
    rw [UInt32.toNat_add_ofNat (by omega), hfirst]
  have h1 : (UInt32.ofNat r * 2 + 1).toNat = 2 * r + 1 := hnext 1 (by decide)
  have h2 : (UInt32.ofNat r * 2 + 2).toNat = 2 * r + 2 := hnext 2 (by decide)
  have h3 : (UInt32.ofNat r * 2 + 3).toNat = 2 * r + 3 := hnext 3 (by decide)
  simp only [List.map_cons, List.map_nil, hfirst, h1, h2, h3, List.flatMap_cons, List.flatMap_nil, threeItems,
    List.cons_append, List.nil_append]

theorem one_le_rows (s : LeafShape Float) : 1 ≤ s.rows := Nat.le_max_right _ _

theorem length_vertices (s : LeafShape Float) : s.vertices.length = 2 * (s.rows + 1) := by
  rw [vertices, length_flatMap_of_length 2 fun _ _ => rfl, List.length_range, Nat.mul_comm]

variable (s : LeafShape Float)

theorem triangles_mesh (h : 2 * (s.rows + 1) ≤ 4294967296) : s.mesh.triangles = faces s.rows :=
  triangles_of_indices (toNat_indices h)

theorem fits_mesh (h : 2 * (s.rows + 1) ≤ 4294967296) : s.mesh.Fits (2 * (s.rows + 1)) := by
  have hindices := toNat_indices h
  rw [← length_vertices, mesh]
  refine fits_ofVertices _ ?_ fun i hi => ?_
  · have hsize := congrArg List.length hindices
    rw [List.length_map, length_flatMap_of_length 3 fun _ _ => rfl] at hsize
    rw [List.size_toArray]
    omega
  · have hmem : i.toNat ∈ (faces s.rows).flatMap threeItems :=
      hindices ▸ List.mem_map_of_mem (List.mem_toArray.mp hi)
    rw [length_vertices]
    exact (uses_faces (one_le_rows s) i.toNat).mp (List.mem_flatMap.mp hmem)

/-- **A leaf has the triangles of its strip exactly if words can number its vertices.** -/
theorem triangles_mesh_iff : s.mesh.triangles = faces s.rows ↔ 2 * (s.rows + 1) ≤ 4294967296 :=
  ⟨(uses_faces (one_le_rows s)).le_of_triangles, triangles_mesh s⟩

end LeafShape

/-! ## All leaves -/

namespace Foliage

/-- The triangles of a number of copies, each with `count` vertices. -/
def copies (ts : List (Nat × Nat × Nat)) (count : Nat) : Nat → List (Nat × Nat × Nat)
  | 0 => []
  | k + 1 => copies ts count k ++ countOn (k * count) ts

theorem uses_copies {ts : List (Nat × Nat × Nat)} {count : Nat} (h : Uses ts count) :
    ∀ k, Uses (copies ts count k) (k * count)
  | 0 => by rw [Nat.zero_mul]; exact uses_nil
  | k + 1 => by rw [Nat.succ_mul]; exact (uses_copies h k).append h

/-- Without transforms nothing is baked. -/
theorem bake_of_length_eq_zero (shape : Mesh) {f : Foliage} (h : f.bakedMatrices.length = 0) :
    f.bake shape = .empty := by
  have hnil : (List.range f.placed).filterMap (block? f.matrices 16) = [] := List.eq_nil_of_length_eq_zero h
  unfold bake
  rw [hnil, List.foldl_nil]

/-- **Baking copies the triangles of the leaf,** while all vertices can be numbered. -/
theorem triangles_bake {shape : Mesh} {count : Nat} (h : shape.Fits count) (f : Foliage)
    (htotal : f.bakedMatrices.length * count ≤ 4294967296) :
    (f.bake shape).triangles = copies shape.triangles count f.bakedMatrices.length := by
  have hfold : ∀ matrices : List (Array Float32), matrices.length * count ≤ 4294967296 →
      (matrices.foldl (fun baked matrix => baked ++ transform matrix shape) .empty).triangles =
        copies shape.triangles count matrices.length := by
    intro matrices
    induction matrices using List.reverseRecOn with
    | nil => exact fun _ => triangles_empty
    | append_singleton matrices matrix ih =>
      intro hroom
      rw [List.length_append, List.length_singleton, Nat.succ_mul] at hroom
      have hdone := fits_foldl h matrices fits_empty (by omega)
      rw [Nat.zero_add] at hdone
      rw [List.foldl_append, List.foldl_cons, List.foldl_nil,
        triangles_append hdone (fits_transform h matrix) (by omega), ih (by omega), List.length_append]
      rfl
  exact hfold f.bakedMatrices htotal

end Foliage

namespace LeafShape

variable (s : LeafShape Float) (f : Foliage)

/-- The copies of a leaf fit together while all their vertices can be numbered, whatever the leaf is like if there are
none. -/
theorem fits_bake (h : f.bakedMatrices.length * (2 * (s.rows + 1)) ≤ 4294967296) :
    (f.bake s.mesh).Fits (f.bakedMatrices.length * (2 * (s.rows + 1))) ∧
      (f.bake s.mesh).triangles = Foliage.copies (faces s.rows) (2 * (s.rows + 1)) f.bakedMatrices.length := by
  rcases Nat.eq_zero_or_pos f.bakedMatrices.length with hnone | hsome
  · rw [hnone, Foliage.bake_of_length_eq_zero s.mesh hnone, Nat.zero_mul]
    exact ⟨fits_empty, triangles_empty⟩
  · have hone : 2 * (s.rows + 1) ≤ 4294967296 := Nat.le_trans (Nat.le_mul_of_pos_left _ hsome) h
    rw [← triangles_mesh s hone]
    exact ⟨Foliage.fits_bake (fits_mesh s hone) f h, Foliage.triangles_bake (fits_mesh s hone) f h⟩

/-- **Baked leaves have the triangles of all copies exactly if words can number all vertices.** -/
theorem triangles_bake_iff :
    (f.bake s.mesh).triangles = Foliage.copies (faces s.rows) (2 * (s.rows + 1)) f.bakedMatrices.length ↔
      f.bakedMatrices.length * (2 * (s.rows + 1)) ≤ 4294967296 :=
  ⟨(Foliage.uses_copies (uses_faces (one_le_rows s)) _).le_of_triangles, fun h => (fits_bake s f h).2⟩

end LeafShape
end Arbor
