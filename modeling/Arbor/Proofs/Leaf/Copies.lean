import Arbor.Proofs.Mesh.Count
import Mathlib.Data.List.Induction

/-!
# Merging and copying

Merging counts indices on, and words count on in one way however they are taken together (`Mesh.rebase_rebase`), so
meshes merge in any grouping (`Mesh.append_assoc`), with the empty mesh as the identity. Vertices and triangles add up.

Baking goes from transform to transform until one is missing (`Foliage.bakeFrom`, `Foliage.bake_eq_bakeFrom`). Adding
a leaf counts its indices on just as merging does (`Foliage.bakeNext_eq`), and what it adds is the mesh that this leaf
alone would give (`Foliage.bake_only`), so baked leaves are the merged meshes of single leaves
(`Foliage.bake_eq_foldl_only`). As long as words can number all vertices, the indices of copy `j` are those of the leaf,
counted on by the vertices of `j` leaves (`Foliage.toNat_indices_bake`).
-/

namespace Arbor

/-! ## Merging -/

namespace Mesh

theorem rebase_zero (xs : Array UInt32) : rebase 0 xs = xs := by
  refine (Array.map_congr_left fun i _ => ?_).trans (Array.map_id xs)
  exact UInt32.add_zero i

theorem rebase_append (base : Nat) (xs ys : Array UInt32) : rebase base (xs ++ ys) = rebase base xs ++ rebase base ys :=
  Array.map_append

/-- Indices that are counted on twice are counted on by both numbers, whether words have room for it or not. -/
theorem rebase_rebase (a b : Nat) (xs : Array UInt32) : rebase a (rebase b xs) = rebase (a + b) xs := by
  rw [rebase, rebase, Array.map_map]
  refine Array.map_congr_left fun i _ => ?_
  rw [Function.comp_apply, UInt32.add_assoc, UInt32.ofNat_add, UInt32.add_comm (UInt32.ofNat a)]

/-- Indices keep their numbers while words have room for them. -/
theorem toNat_rebase {base count : Nat} {xs : Array UInt32} (hxs : ∀ i ∈ xs, i.toNat < count)
    (hroom : base + count ≤ 4294967296) : (rebase base xs).map UInt32.toNat = xs.map fun i => i.toNat + base := by
  rw [rebase, Array.map_map]
  refine Array.map_congr_left fun i hi => ?_
  have hlt := hxs i hi
  exact UInt32.toNat_add_ofNat (by omega)

@[simp] theorem append_empty (m : Mesh) : m ++ empty = m := by
  rw [append_def]
  simp only [empty, rebase, Array.append_empty, Array.map_empty]

@[simp] theorem empty_append (m : Mesh) : empty ++ m = m := by
  rw [append_def, show empty.vertexCount = 0 from rfl, rebase_zero]
  simp only [empty, Array.empty_append]

theorem vertexCount_append {m : Mesh} (hm : m.positions.size % 3 = 0) (n : Mesh) :
    (m ++ n).vertexCount = m.vertexCount + n.vertexCount := by
  rw [append_def, vertexCount, vertexCount, vertexCount, Array.size_append]
  omega

theorem triangleCount_append {m : Mesh} (hm : m.indices.size % 3 = 0) (n : Mesh) :
    (m ++ n).triangleCount = m.triangleCount + n.triangleCount := by
  rw [append_def, triangleCount, triangleCount, triangleCount, Array.size_append, rebase, Array.size_map]
  omega

/-- **Meshes merge in any grouping.** -/
theorem append_assoc {m : Mesh} (hm : m.positions.size % 3 = 0) (n p : Mesh) : m ++ n ++ p = m ++ (n ++ p) := by
  rw [append_def (m ++ n) p, append_def m (n ++ p), vertexCount_append hm]
  simp only [append_def, Array.append_assoc, rebase_append, rebase_rebase]

end Mesh

/-! ## Copying -/

namespace Foliage

open Mesh

/-- Adds one leaf: its vertices, carried along, and its indices, counted on from the vertices that are there. -/
def bakeNext (shape baked : Mesh) (matrix : Array Float32) : Mesh where
  positions := baked.positions ++ mapTriples (carryPoint matrix) shape.positions
  normals := baked.normals ++ mapTriples (fun n => unitDirection (carryDirection matrix n)) shape.normals
  uvs := baked.uvs ++ shape.uvs
  indices := baked.indices ++ shape.indices.map (· + UInt32.ofNat baked.vertexCount)

/-- Bakes on from leaf `index`, up to `n` leaves or to the first whose transform is missing. -/
def bakeFrom (shape : Mesh) (f : Foliage) (baked : Mesh) (index : Nat) : Nat → Mesh
  | 0 => baked
  | n + 1 =>
    match block? f.matrices 16 index with
    | none => baked
    | some matrix => bakeFrom shape f (bakeNext shape baked matrix) (index + 1) n

/-- One leaf alone. -/
def only (f : Foliage) (j : Nat) : Foliage where
  matrices := f.matrices.extract (16 * j) (16 * j + 16)
  colors := f.colors.extract (3 * j) (3 * j + 3)
  count := 1

variable {f : Foliage}

theorem block?_of_lt {j : Nat} (h : j < f.matrices.size / 16) : block? f.matrices 16 j = some (f.only j).matrices :=
  if_pos (by omega)

theorem block?_of_ge {j : Nat} (h : f.matrices.size / 16 ≤ j) : block? f.matrices 16 j = none := if_neg (by omega)

/-- **Adding a leaf is merging with its copy.** -/
theorem bakeNext_eq (shape baked : Mesh) (matrix : Array Float32) :
    bakeNext shape baked matrix = baked ++ transform matrix shape := rfl

/-- The transforms of all leaves that are placed are there. -/
theorem bakedMatrices_eq_map (f : Foliage) :
    f.bakedMatrices = (List.range f.placed).map fun j => (f.only j).matrices := by
  rw [bakedMatrices, ← List.filterMap_eq_map]
  refine List.filterMap_congr fun j hj => block?_of_lt ?_
  exact Nat.lt_of_lt_of_le (List.mem_range.mp hj) (Nat.min_le_right _ _)

theorem length_bakedMatrices (f : Foliage) : f.bakedMatrices.length = f.placed := by
  rw [bakedMatrices_eq_map, List.length_map, List.length_range]

/-- Baking on adds the copies of the leaves from `index` on whose transforms are there, and of no more than `n`. -/
theorem bakeFrom_eq_foldl (shape : Mesh) (f : Foliage) : ∀ (n index : Nat) (baked : Mesh),
    f.bakeFrom shape baked index n =
      ((List.range' index (min n (f.matrices.size / 16 - index))).map fun j => (f.only j).matrices).foldl
        (fun baked matrix => baked ++ transform matrix shape) baked
  | 0, index, baked => by
    rw [Nat.zero_min]
    rfl
  | n + 1, index, baked => by
    rcases Nat.lt_or_ge index (f.matrices.size / 16) with hlt | hge
    · have hleft : min (n + 1) (f.matrices.size / 16 - index) = min n (f.matrices.size / 16 - (index + 1)) + 1 := by
        omega
      rw [bakeFrom, block?_of_lt hlt, hleft, List.range'_succ, List.map_cons, List.foldl_cons, ← bakeNext_eq]
      exact bakeFrom_eq_foldl shape f n (index + 1) _
    · have hleft : min (n + 1) (f.matrices.size / 16 - index) = 0 := by omega
      rw [bakeFrom, block?_of_ge hge, hleft]
      rfl

/-- **Baking stops at the first transform that is missing.** -/
theorem bake_eq_bakeFrom (shape : Mesh) (f : Foliage) : f.bake shape = f.bakeFrom shape .empty 0 f.count := by
  have hbaked := bakedMatrices_eq_map f
  rw [bakeFrom_eq_foldl, ← List.range_eq_range', Nat.sub_zero, ← placed, ← hbaked]
  rfl

/-- **A leaf alone gives the copy of its transform.** -/
theorem bake_only (shape : Mesh) {f : Foliage} {j : Nat} (hj : j < f.placed) :
    (f.only j).bake shape = transform (f.only j).matrices shape := by
  have hthere : j < f.matrices.size / 16 := Nat.lt_of_lt_of_le hj (Nat.min_le_right _ _)
  have hsize : (f.only j).matrices.size = 16 := by
    rw [only, Array.size_extract]
    omega
  have hplaced : (f.only j).placed = 1 := by
    rw [placed, hsize]
    rfl
  have hmatrix : ((f.only j).only 0).matrices = (f.only j).matrices := Array.extract_eq_self_of_le (by omega)
  have hbaked : (f.only j).bakedMatrices = [(f.only j).matrices] := by
    rw [bakedMatrices_eq_map, hplaced, ← hmatrix]
    rfl
  calc (f.only j).bake shape
      = [(f.only j).matrices].foldl (fun baked matrix => baked ++ transform matrix shape) .empty := by
        rw [← hbaked]
        rfl
    _ = transform (f.only j).matrices shape := empty_append _

/-- **Baked leaves are the leaves baked one by one and merged in order.** -/
theorem bake_eq_foldl_only (shape : Mesh) (f : Foliage) :
    f.bake shape = ((List.range f.placed).map fun j => (f.only j).bake shape).foldl (· ++ ·) .empty := by
  have hcopies : (List.range f.placed).map (fun j => (f.only j).bake shape) =
      f.bakedMatrices.map fun matrix => transform matrix shape := by
    rw [bakedMatrices_eq_map, List.map_map]
    exact List.map_congr_left fun j hj => bake_only shape (List.mem_range.mp hj)
  rw [hcopies, List.foldl_map]
  rfl

variable {shape : Mesh} {count : Nat}

/-- **The indices of each copy are those of the leaf, counted on,** while words can number all vertices. -/
theorem toNat_indices_bake (h : shape.Fits count) (f : Foliage) (hroom : f.placed * count ≤ 4294967296) :
    (f.bake shape).indices.toList.map UInt32.toNat =
      (List.range f.placed).flatMap fun j => shape.indices.toList.map fun i => i.toNat + j * count := by
  have hfold : ∀ matrices : List (Array Float32), matrices.length * count ≤ 4294967296 →
      (matrices.foldl (fun baked matrix => baked ++ transform matrix shape) .empty).indices.toList.map UInt32.toNat =
        (List.range matrices.length).flatMap fun j => shape.indices.toList.map fun i => i.toNat + j * count := by
    intro matrices
    -- from behind, because the last copy is counted on from all the others
    induction matrices using List.reverseRecOn with
    | nil => exact fun _ => rfl
    | append_singleton matrices matrix ih =>
      intro hroom
      rw [List.length_append, List.length_singleton, Nat.succ_mul] at hroom
      have hdone := fits_foldl h matrices fits_empty (by omega)
      rw [Nat.zero_add] at hdone
      have hnext : (rebase (matrices.length * count) shape.indices).toList.map UInt32.toNat =
          shape.indices.toList.map fun i => i.toNat + matrices.length * count := by
        rw [← Array.toList_map, toNat_rebase h.index hroom, Array.toList_map]
      rw [List.foldl_append, List.foldl_cons, List.foldl_nil, append_def, hdone.vertexCount, List.length_append,
        List.length_singleton, List.range_succ, List.flatMap_append, ← ih (by omega), List.flatMap_singleton, ← hnext,
        Array.toList_append, List.map_append]
      rfl
  have hbake := hfold f.bakedMatrices
  rw [length_bakedMatrices] at hbake
  exact hbake hroom

/-- Copy `j` has its own stretch of the indices, and names only its own vertices there. -/
theorem toNat_indices_copy (h : shape.Fits count) (f : Foliage) (hroom : f.placed * count ≤ 4294967296) {j : Nat}
    (hj : j < f.placed) :
    let n := shape.indices.size
    let copy := (f.bake shape).indices.extract (n * j) (n * j + n)
    copy.map UInt32.toNat = shape.indices.map (fun i => i.toNat + j * count) ∧
      ∀ i ∈ copy, j * count ≤ i.toNat ∧ i.toNat < (j + 1) * count := by
  intro n copy
  have hcopy : copy.map UInt32.toNat = shape.indices.map fun i => i.toNat + j * count := by
    have hlength : ∀ k ∈ List.range f.placed, (shape.indices.toList.map fun i => i.toNat + k * count).length = n :=
      fun k _ => by rw [List.length_map, Array.length_toList]
    refine Array.ext' ?_
    rw [Array.toList_map, Array.toList_map, Array.toList_extract, List.extract_eq_take_drop, Nat.add_sub_cancel_left,
      List.map_take, List.map_drop, toNat_indices_bake h f hroom,
      block_flatMap_of_length n hlength (List.getElem?_range hj)]
  refine ⟨hcopy, fun i hi => ?_⟩
  have hmem : i.toNat ∈ shape.indices.map fun i => i.toNat + j * count := hcopy ▸ Array.mem_map_of_mem hi
  obtain ⟨i', hi', hsum⟩ := Array.mem_map.mp hmem
  have hlt := h.index i' hi'
  rw [Nat.succ_mul]
  omega

/-- **Merging and baking keep meshes valid.** As long as words can number all vertices, one valid mesh behind another is
valid, with the indices of the second counted on; meshes merge in any grouping, and the empty one changes nothing.

Baking a valid leaf for every transform that is there, up to the first that is missing, is merging in order the meshes of
the single leaves. It gives the vertices and triangles of one leaf for each, and copy `j` has the indices of the leaf,
counted on by the vertices of `j` leaves, which are all among its own vertices. -/
theorem bake_merges :
    (∀ m n : Mesh, m.hasValidShape = true → n.hasValidShape = true → m.vertexCount + n.vertexCount ≤ 4294967296 →
      (m ++ n).hasValidShape = true ∧ (m ++ n).vertexCount = m.vertexCount + n.vertexCount ∧
        (m ++ n).triangleCount = m.triangleCount + n.triangleCount ∧
        (m ++ n).indices.map UInt32.toNat =
          m.indices.map UInt32.toNat ++ n.indices.map fun i => i.toNat + m.vertexCount) ∧
    (∀ m n p : Mesh, m.hasValidShape = true → m ++ n ++ p = m ++ (n ++ p)) ∧
    (∀ m : Mesh, m ++ .empty = m ∧ .empty ++ m = m) ∧
    ∀ (shape : Mesh) (f : Foliage), shape.hasValidShape = true →
      let k := min f.count (f.matrices.size / 16)
      let baked := f.bake shape
      baked = f.bakeFrom shape .empty 0 f.count ∧
      baked = ((List.range k).map fun j => (f.only j).bake shape).foldl (· ++ ·) .empty ∧
      (k * shape.vertexCount ≤ 4294967296 →
        baked.hasValidShape = true ∧ baked.vertexCount = k * shape.vertexCount ∧
        baked.triangleCount = k * shape.triangleCount ∧
        ∀ j < k,
          let n := shape.indices.size
          let copy := baked.indices.extract (n * j) (n * j + n)
          copy.map UInt32.toNat = shape.indices.map (fun i => i.toNat + j * shape.vertexCount) ∧
            ∀ i ∈ copy, j * shape.vertexCount ≤ i.toNat ∧ i.toNat < (j + 1) * shape.vertexCount) := by
  refine ⟨fun m n hm hn hroom => ?_, fun m n p hm => ?_, fun m => ⟨append_empty m, empty_append m⟩, ?_⟩
  · have hm' := hasValidShape_iff.mp hm
    have hn' := hasValidShape_iff.mp hn
    have hmerged := hm'.append hn' hroom
    refine ⟨hmerged.hasValidShape, hmerged.vertexCount, triangleCount_append hm'.whole n, ?_⟩
    rw [append_def, Array.map_append, toNat_rebase hn'.index hroom]
  · have hpositions := (hasValidShape_iff.mp hm).positions
    exact append_assoc (by omega) n p
  · intro shape f hshape k baked
    refine ⟨bake_eq_bakeFrom shape f, bake_eq_foldl_only shape f, fun hroom => ?_⟩
    have hshape' := hasValidShape_iff.mp hshape
    have hbaked := fits_bake hshape' f (by rwa [length_bakedMatrices])
    have htriangles := triangleCount_bake shape hshape'.whole f
    rw [length_bakedMatrices] at hbaked htriangles
    exact ⟨hbaked.hasValidShape, hbaked.vertexCount, htriangles, fun j hj => toNat_indices_copy hshape' f hroom hj⟩

/-- A leaf of one triangle. -/
def leaflet : Mesh := ⟨Array.replicate 9 0.0, Array.replicate 9 1.0, Array.replicate 6 0.5, #[0, 2, 1]⟩

/-- Three leaves by their count, two and a half by their transforms, and none by their colors. -/
def torn : Foliage := ⟨Array.replicate 40 1.0, #[0.5], 3⟩

/-- Two leaves of the torn foliage are baked. -/
theorem bake_merges_torn :
    let baked := torn.bake leaflet
    leaflet.hasValidShape = true ∧ (leaflet ++ leaflet).hasValidShape = true ∧ baked.hasValidShape = true ∧
      baked.vertexCount = 6 ∧ baked.triangleCount = 2 ∧
      baked = (torn.only 0).bake leaflet ++ (torn.only 1).bake leaflet ∧
      (baked.indices.extract 3 6).map UInt32.toNat = #[3, 5, 4] := by
  intro baked
  have hleaflet : leaflet.hasValidShape = true := by decide +kernel
  have hvertices : leaflet.vertexCount = 3 := by decide +kernel
  obtain ⟨hmerge, -, hempty, hbake⟩ := bake_merges
  obtain ⟨hpair, -⟩ := hmerge leaflet leaflet hleaflet hleaflet (by rw [hvertices]; decide)
  obtain ⟨-, hcopies, hroom⟩ := hbake leaflet torn hleaflet
  have hplaced : min torn.count (torn.matrices.size / 16) = 2 := by decide +kernel
  rw [hplaced] at hcopies hroom
  obtain ⟨hvalid, hcount, htriangles, hindices⟩ := hroom (by rw [hvertices]; decide)
  refine ⟨hleaflet, hpair, hvalid, hcount.trans ?_, htriangles.trans ?_, ?_, ?_⟩
  · rw [hvertices]
  · decide +kernel
  · calc baked = .empty ++ (torn.only 0).bake leaflet ++ (torn.only 1).bake leaflet := hcopies
      _ = _ := by rw [(hempty _).2]
  · exact (hindices 1 (by decide)).1.trans (by decide +kernel)

end Foliage
end Arbor
