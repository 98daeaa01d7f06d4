import Arbor.Leaf.Shape
import Arbor.Proofs.Branch.Topology
import Arbor.Proofs.Leaf.Foliage

/-!
# How many triangles there are

A tube has two triangles for each vertex of a ring (`Branch.triangleCount_mesh`), a leaf two for each row of quads
(`LeafShape.triangleCount_mesh`), and baking copies those of the leaf for every transform
(`Foliage.triangleCount_bake`). These are counts of what the buffers hold; they need no limit on the vertex numbers.
-/

namespace Arbor

/-! ## Branches -/

namespace Branch

theorem size_indices (tubes n : Nat) : (indices tubes n).size = 3 * (2 * n * tubes) := by
  have htube : ∀ k ∈ List.range tubes, (tubeIndices n k).length = 3 * (2 * n) := by
    intro k _
    rw [tubeIndices, Ring.connect, length_flatMap_of_length 6 fun _ _ => rfl, List.length_range]
    omega
  rw [← Array.length_toList, toList_indices, length_flatMap_of_length _ htube, List.length_range, Nat.mul_comm,
    Nat.mul_assoc]

/-- **Each drawn segment has two triangles for every vertex of a ring.** -/
theorem triangleCount_mesh (s : Skeleton Float) (bark : Bark Float) :
    (mesh s bark).triangleCount = 2 * bark.radialSegments * s.drawn.length := by
  have hindices : (mesh s bark).indices = indices (tubes s bark.textureScale).length bark.radialSegments :=
    congrArg Mesh.indices (mesh_eq_ofVertices s bark)
  rw [Mesh.triangleCount, hindices, size_indices, length_tubes, Nat.mul_div_cancel_left _ (by decide)]

end Branch

/-! ## Leaves -/

namespace LeafShape

theorem size_indices (shape : LeafShape Float) : shape.mesh.indices.size = 3 * (2 * shape.rows) := by
  have hindices : shape.mesh.indices = (indices shape.rows).toArray := rfl
  rw [hindices, List.size_toArray, indices, length_flatMap_of_length 6 fun _ _ => rfl, List.length_range]
  omega

/-- **A leaf has two triangles for every row of quads.** -/
theorem triangleCount_mesh (shape : LeafShape Float) : shape.mesh.triangleCount = 2 * shape.rows := by
  rw [Mesh.triangleCount, size_indices, Nat.mul_div_cancel_left _ (by decide)]

end LeafShape

namespace Foliage

/-- Baked leaves have the indices of one leaf for every transform. -/
theorem size_indices_bake (shape : Mesh) (f : Foliage) :
    (f.bake shape).indices.size = f.bakedMatrices.length * shape.indices.size := by
  have hfold : ∀ (matrices : List (Array Float32)) (baked : Mesh),
      (matrices.foldl (fun baked matrix => baked ++ transform matrix shape) baked).indices.size =
        baked.indices.size + matrices.length * shape.indices.size := by
    intro matrices
    induction matrices with
    | nil => simp
    | cons matrix matrices ih =>
      intro baked
      rw [List.foldl_cons, ih, Mesh.append_def, List.length_cons, Nat.succ_mul]
      simp only [Array.size_append, Mesh.rebase, Array.size_map, transform]
      omega
  exact (hfold f.bakedMatrices .empty).trans (Nat.zero_add _)

/-- **Baking copies the triangles of the leaf for every transform.** -/
theorem triangleCount_bake (shape : Mesh) (hwhole : shape.indices.size % 3 = 0) (f : Foliage) :
    (f.bake shape).triangleCount = f.bakedMatrices.length * shape.triangleCount := by
  rw [Mesh.triangleCount, Mesh.triangleCount, size_indices_bake, Nat.mul_div_assoc _ (Nat.dvd_of_mod_eq_zero hwhole)]

/-- The transforms of all leaves are baked. -/
theorem length_bakedMatrices_ofLeaves (s : LeafScatter Float) (seed : String) (leaves : List (Leaf Float)) :
    (ofLeaves s seed leaves).bakedMatrices.length = leaves.length := by
  have hplaced : (ofLeaves s seed leaves).placed = leaves.length := by
    rw [placed, count_ofLeaves, size_matrices_ofLeaves, Nat.mul_div_cancel_left _ (by decide), Nat.min_self]
  rw [bakedMatrices, hplaced, List.filterMap_length_eq_length.mpr fun i hi => ?_, List.length_range]
  rw [block?_matrices_ofLeaves, Option.isSome_map, List.getElem?_eq_getElem (List.mem_range.mp hi)]
  rfl

end Foliage
end Arbor
