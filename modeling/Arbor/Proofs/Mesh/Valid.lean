import Arbor.Leaf.Foliage
import Arbor.Proofs.Mesh.Groups

/-!
# Meshes that fit together

`Mesh.Fits` says of a mesh that its buffers hold the same number of vertices and that its indices name them in whole
groups; this is what `Mesh.hasValidShape` tests (`hasValidShape_iff`). Merging keeps it as long as the vertices can be
numbered with 32 bits (`Fits.append`), and so does baking (`fits_bake`).
-/

namespace Arbor

theorem UInt32.toNat_add_ofNat {i : UInt32} {base : Nat} (h : i.toNat + base < 4294967296) :
    (i + UInt32.ofNat base).toNat = i.toNat + base := by
  rw [UInt32.toNat_add, UInt32.toNat_ofNat']
  omega

namespace Mesh

/-- The buffers hold `count` vertices, and every triangle joins three of them. -/
structure Fits (m : Mesh) (count : Nat) : Prop where
  positions : m.positions.size = 3 * count
  normals : m.normals.size = 3 * count
  uvs : m.uvs.size = 2 * count
  whole : m.indices.size % 3 = 0
  index : ∀ i ∈ m.indices, i.toNat < count

variable {m n : Mesh} {a b : Nat}

theorem Fits.vertexCount (h : m.Fits a) : m.vertexCount = a := by
  rw [Mesh.vertexCount, h.positions, Nat.mul_div_cancel_left a (by decide)]

/-- **The test finds out whether a mesh fits together.** -/
theorem hasValidShape_iff : m.hasValidShape = true ↔ m.Fits m.vertexCount := by
  simp only [hasValidShape, Bool.and_eq_true, beq_iff_eq, Array.all_eq_true_iff_forall_mem, decide_eq_true_eq]
  constructor
  · rintro ⟨⟨⟨⟨hpositions, hnormals⟩, huvs⟩, hwhole⟩, hindex⟩
    have hcount : m.positions.size = 3 * m.vertexCount := by
      rw [Mesh.vertexCount]
      omega
    exact ⟨hcount, hnormals.trans hcount, by omega, hwhole, hindex⟩
  · intro h
    have hpositions := h.positions
    exact ⟨⟨⟨⟨by omega, h.normals.trans h.positions.symm⟩, by rw [h.uvs, Nat.mul_comm]⟩, h.whole⟩, h.index⟩

theorem Fits.hasValidShape (h : m.Fits a) : m.hasValidShape = true := by
  rw [hasValidShape_iff, h.vertexCount]
  exact h

/-! ## Merging -/

theorem fits_empty : empty.Fits 0 where
  positions := rfl
  normals := rfl
  uvs := rfl
  whole := rfl
  index i hi := absurd hi (Array.not_mem_empty i)

/-- A mesh without vertices that fits together has nothing at all. -/
theorem Fits.eq_empty (h : m.Fits 0) : m = empty := by
  have hindices : m.indices = #[] := Array.eq_empty_iff_forall_not_mem.mpr fun i hi => Nat.not_lt_zero _ (h.index i hi)
  obtain ⟨positions, normals, uvs, indices⟩ := m
  rw [empty, mk.injEq]
  exact ⟨Array.eq_empty_of_size_eq_zero h.positions, Array.eq_empty_of_size_eq_zero h.normals,
    Array.eq_empty_of_size_eq_zero h.uvs, hindices⟩

theorem Fits.isEmpty_iff (h : m.Fits a) : m.isEmpty = true ↔ a = 0 := by
  rw [isEmpty, Array.isEmpty_iff_size_eq_zero, h.positions]
  omega

/-- **Merging keeps meshes fitting** while all vertices can be numbered. -/
theorem Fits.append (hm : m.Fits a) (hn : n.Fits b) (h : a + b ≤ 4294967296) : (m ++ n).Fits (a + b) := by
  rw [append_def, hm.vertexCount]
  refine ⟨?_, ?_, ?_, ?_, fun i hi => ?_⟩
  · simp only [Array.size_append, hm.positions, hn.positions]
    omega
  · simp only [Array.size_append, hm.normals, hn.normals]
    omega
  · simp only [Array.size_append, hm.uvs, hn.uvs]
    omega
  · have h1 := hm.whole
    have h2 := hn.whole
    simp only [Array.size_append, rebase, Array.size_map]
    omega
  · rcases Array.mem_append.mp hi with hi | hi
    · have := hm.index i hi
      omega
    · obtain ⟨j, hj, rfl⟩ := Array.mem_map.mp hi
      have := hn.index j hj
      rw [UInt32.toNat_add_ofNat (by omega)]
      omega

/-! ## Packing -/

/-- Packed vertices fit their triangles if these come in whole groups and name only vertices that there are. -/
theorem fits_ofVertices (vertices : List (Vertex Float)) {indices : Array UInt32} (hwhole : indices.size % 3 = 0)
    (hindex : ∀ i ∈ indices, i.toNat < vertices.length) : (ofVertices vertices indices).Fits vertices.length where
  positions := by
    rw [← Array.length_toList, positions_ofVertices, length_flatMap_of_length 3 fun _ _ => rfl, Nat.mul_comm]
  normals := by
    rw [← Array.length_toList, normals_ofVertices, length_flatMap_of_length 3 fun _ _ => rfl, Nat.mul_comm]
  uvs := by
    rw [← Array.length_toList, uvs_ofVertices, length_flatMap_of_length 2 fun _ _ => rfl, Nat.mul_comm]
  whole := hwhole
  index := hindex

end Mesh

/-! ## Baking -/

namespace Foliage

open Mesh

variable {shape : Mesh} {count : Nat}

theorem toList_mapTriples (f : Vec3 Float32 → Vec3 Float32) (buffer : Array Float32) :
    (mapTriples f buffer).toList = (inThrees buffer.toList).flatMap fun t => (f ⟨t.1, t.2.1, t.2.2⟩).toList := by
  have hfold : ∀ (ts : List (Float32 × Float32 × Float32)) (out : Array Float32),
      (ts.foldl (fun out t => (f ⟨t.1, t.2.1, t.2.2⟩).toList.foldl Array.push out) out).toList =
        out.toList ++ ts.flatMap fun t => (f ⟨t.1, t.2.1, t.2.2⟩).toList := by
    intro ts
    induction ts with
    | nil => simp
    | cons t ts ih =>
      intro out
      rw [List.foldl_cons, ih]
      simp
  rw [mapTriples, ← Array.foldl_toList, toList_triples]
  exact hfold (inThrees buffer.toList) #[]

theorem size_mapTriples (f : Vec3 Float32 → Vec3 Float32) (buffer : Array Float32) :
    (mapTriples f buffer).size = 3 * (buffer.size / 3) := by
  rw [← Array.length_toList, toList_mapTriples, length_flatMap_of_length 3 fun _ _ => rfl, length_inThrees,
    Array.length_toList, Nat.mul_comm]

theorem fits_transform (h : shape.Fits count) (matrix : Array Float32) : (transform matrix shape).Fits count where
  positions := by rw [transform, size_mapTriples, h.positions]; omega
  normals := by rw [transform, size_mapTriples, h.normals]; omega
  uvs := h.uvs
  whole := h.whole
  index := h.index

/-- The transforms that are baked. -/
def bakedMatrices (f : Foliage) : List (Array Float32) :=
  (List.range f.placed).filterMap (block? f.matrices 16)

theorem fits_foldl (h : shape.Fits count) (matrices : List (Array Float32)) {baked : Mesh} {done : Nat}
    (hbaked : baked.Fits done) (htotal : done + matrices.length * count ≤ 4294967296) :
    (matrices.foldl (fun baked matrix => baked ++ transform matrix shape) baked).Fits
      (done + matrices.length * count) := by
  induction matrices generalizing baked done with
  | nil => simpa using hbaked
  | cons matrix matrices ih =>
    rw [List.length_cons, Nat.succ_mul] at htotal ⊢
    have hnext := hbaked.append (fits_transform h matrix) (by omega)
    have hrest := ih hnext (by omega)
    rw [List.foldl_cons, show done + (matrices.length * count + count) = done + count + matrices.length * count by omega]
    exact hrest

/-- **Baked leaves fit together** while all their vertices can be numbered. -/
theorem fits_bake (h : shape.Fits count) (f : Foliage) (htotal : f.bakedMatrices.length * count ≤ 4294967296) :
    (f.bake shape).Fits (f.bakedMatrices.length * count) := by
  have hfold := fits_foldl h f.bakedMatrices fits_empty (by omega)
  rwa [Nat.zero_add] at hfold

/-- Baked leaves have the vertices of one leaf for every transform, however many they are. -/
theorem size_positions_bake (h : shape.Fits count) (f : Foliage) :
    (f.bake shape).positions.size = 3 * (f.bakedMatrices.length * count) := by
  have hfold : ∀ (matrices : List (Array Float32)) (baked : Mesh),
      (matrices.foldl (fun baked matrix => baked ++ transform matrix shape) baked).positions.size =
        baked.positions.size + 3 * (matrices.length * count) := by
    intro matrices
    induction matrices with
    | nil => simp
    | cons matrix matrices ih =>
      intro baked
      have hcopy := (fits_transform h matrix).positions
      rw [List.foldl_cons, ih, append_def, List.length_cons, Nat.succ_mul matrices.length]
      simp only [Array.size_append, hcopy]
      omega
  have hbake := hfold f.bakedMatrices .empty
  exact hbake.trans (Nat.zero_add _)

end Foliage

end Arbor
