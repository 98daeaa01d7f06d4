import Arbor.Proofs.Mesh.Valid

/-!
# Triangles and their edges

A mesh has a triangle for every whole group of its indices, and every triangle has three directed edges, in the order
of its corners. A surface is consistently wound if no directed edge occurs twice: two triangles that share an edge run
along it in opposite directions. An edge whose reverse does not occur lies on the boundary.
-/

namespace Arbor
namespace Mesh

/-- The corners of the triangles, as numbers of vertices. -/
def triangles (m : Mesh) : List (Nat × Nat × Nat) :=
  (triples m.indices).toList.map fun t => (t.1.toNat, t.2.1.toNat, t.2.2.toNat)

/-- The directed edges of triangles. -/
def edgesOf (ts : List (Nat × Nat × Nat)) : List (Nat × Nat) :=
  ts.flatMap fun t => [(t.1, t.2.1), (t.2.1, t.2.2), (t.2.2, t.1)]

/-- The directed edges of a mesh. -/
def edges (m : Mesh) : List (Nat × Nat) := edgesOf m.triangles

theorem length_triangles (m : Mesh) : m.triangles.length = m.triangleCount := by
  rw [triangles, List.length_map, toList_triples, length_inThrees, Array.length_toList, triangleCount]

theorem triangles_eq (m : Mesh) : m.triangles = inThrees (m.indices.toList.map UInt32.toNat) := by
  rw [triangles, toList_triples, inThrees_map]

/-- Triangles are read back from the indices they were written to. -/
theorem triangles_of_indices {m : Mesh} {ts : List (Nat × Nat × Nat)}
    (h : m.indices.toList.map UInt32.toNat = ts.flatMap threeItems) : m.triangles = ts := by
  rw [triangles_eq, h, inThrees_flatten]

/-- **The triangles of merged meshes** are those of both, the second counted on from the vertices of the first. -/
theorem triangles_append {m n : Mesh} {a b : Nat} (hm : m.Fits a) (hn : n.Fits b) (h : a + b ≤ 4294967296) :
    (m ++ n).triangles = m.triangles ++ n.triangles.map fun t => (t.1 + a, t.2.1 + a, t.2.2 + a) := by
  have hrebase : ∀ i ∈ n.indices.toList, (i + UInt32.ofNat a).toNat = i.toNat + a := by
    intro i hi
    have := hn.index i (Array.mem_toList_iff.mp hi)
    exact UInt32.toNat_add_ofNat (by omega)
  have hnumbers : (rebase a n.indices).toList.map UInt32.toNat = (n.indices.toList.map UInt32.toNat).map (· + a) := by
    rw [rebase, Array.toList_map, List.map_map, List.map_map]
    exact List.map_congr_left hrebase
  have hwhole : (m.indices.toList.map UInt32.toNat).length % 3 = 0 := by
    rw [List.length_map, Array.length_toList]
    exact hm.whole
  rw [triangles_eq, triangles_eq, triangles_eq, append_def, hm.vertexCount, Array.toList_append, List.map_append,
    hnumbers, inThrees_append hwhole, inThrees_map (· + a)]

end Mesh
end Arbor
