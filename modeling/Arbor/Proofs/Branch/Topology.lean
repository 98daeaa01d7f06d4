import Arbor.Branch
import Arbor.Proofs.Branch.Tube
import Arbor.Proofs.Mesh.Valid
import Arbor.Proofs.Transducer

/-!
# The surface of all branches

A segment is drawn if both of its nodes exist (`Skeleton.hasEnds`); the others leave no trace (`run_drawn`). With
`n` vertices in a ring, the tubes before tube `k` have `2 * n * k` vertices (`foldl_addTube`), from which on it has its
own `2 * n`, and as many triangles (`triangles_mesh`). As long as all vertices can be numbered, different tubes share no
vertex, and what holds of each tube holds of the mesh (`mesh_topology`): it is wound consistently, and its boundary are
the rings.
-/

namespace Arbor

open scoped Scalar

/-- Both nodes of the segment exist. -/
def Skeleton.hasEnds {α : Type} (s : Skeleton α) (seg : Segment α) : Bool :=
  (s.node? seg.start).isSome && (s.node? seg.finish).isSome

/-- The segments that are drawn. -/
def Skeleton.drawn {α : Type} (s : Skeleton α) : List (Segment α) := s.segments.toList.filter s.hasEnds

/-- The skeleton with only the first drawn segments. -/
def Skeleton.upTo {α : Type} (s : Skeleton α) (k : Nat) : Skeleton α := { s with segments := (s.drawn.take k).toArray }

namespace Branch

/-! ## Drawn segments -/

section Drawn

variable {α : Type} [Scalar α] (s : Skeleton α) (textureScale : α)

/-- A segment without one of its nodes leaves no trace. -/
theorem tube_dangling (v : α) {seg : Segment α} (h : s.hasEnds seg = false) : tube s textureScale v seg = ([], v) := by
  unfold Skeleton.hasEnds at h
  unfold tube
  cases hstart : s.node? seg.start with
  | none => rfl
  | some start =>
    cases hfinish : s.node? seg.finish with
    | none => rfl
    | some finish => simp [hstart, hfinish] at h

theorem length_tube (v : α) {seg : Segment α} (h : s.hasEnds seg = true) : (tube s textureScale v seg).1.length = 1 := by
  unfold Skeleton.hasEnds at h
  obtain ⟨hstart, hfinish⟩ := Bool.and_eq_true_iff.mp h
  obtain ⟨start, hstart⟩ := Option.isSome_iff_exists.mp hstart
  obtain ⟨finish, hfinish⟩ := Option.isSome_iff_exists.mp hfinish
  unfold tube
  rw [hstart, hfinish]
  rfl

/-- **Segments without one of their nodes can be left out.** -/
theorem run_drawn (v : α) : (tube s textureScale).run v s.drawn = (tube s textureScale).run v s.segments.toList := by
  have hskip : ∀ v seg, s.hasEnds seg = false → tube s textureScale v seg = ([], v) :=
    fun v _ => tube_dangling s textureScale v
  exact Transducer.run_filter hskip v s.segments.toList

private theorem length_tube_drawn :
    ∀ seg ∈ s.drawn, ∀ v, (tube s textureScale v seg).1.length = 1 :=
  fun _ hseg v => length_tube s textureScale v (List.mem_filter.mp hseg).2

theorem length_tubes : (tubes s textureScale).length = s.drawn.length := by
  rw [tubes, ← run_drawn]
  exact Transducer.length_run (length_tube_drawn s textureScale) 0

/-- The tubes of the first drawn segments are the first tubes. -/
theorem tubes_upTo (k : Nat) : tubes (s.upTo k) textureScale = (tubes s textureScale).take k := by
  have hrun : tubes s textureScale = ((tube s textureScale).run 0 s.drawn).1 := by
    rw [tubes, run_drawn]
  rw [hrun]
  exact Transducer.run_take (length_tube_drawn s textureScale) 0 k

end Drawn

/-! ## Vertices -/

theorem length_circle (n : Nat) : (Ring.circle n).length = n := by
  rw [Ring.circle, List.length_map, List.length_range]

theorem length_vertices_tube {α : Type} [Scalar α] (directions : List (Vec3 α)) (t : Tube α) :
    (t.vertices directions).length = 2 * directions.length := by
  simp only [Tube.vertices, Ring.vertices, Tube.startRing, Tube.finishRing, Ring.around, List.length_append,
    List.length_map, List.length_zipIdx, List.length_zip]
  omega

theorem length_vertices {α : Type} [Scalar α] (s : Skeleton α) (textureScale : α) (directions : List (Vec3 α)) :
    (vertices s textureScale directions).length = 2 * directions.length * (tubes s textureScale).length := by
  rw [vertices, length_flatMap_of_length (2 * directions.length) fun t _ => length_vertices_tube directions t,
    Nat.mul_comm]

/-! ## The mesh as a whole -/

/-- The triangles of tube `k`. -/
def tubeIndices (n k : Nat) : List UInt32 :=
  let a := UInt32.ofNat (2 * n * k)
  Ring.connect a (a + UInt32.ofNat n) n

/-- The triangles of a number of tubes. -/
def indices (tubes n : Nat) : Array UInt32 := ((List.range tubes).flatMap (tubeIndices n)).toArray

theorem toList_indices (tubes n : Nat) : (indices tubes n).toList = (List.range tubes).flatMap (tubeIndices n) := rfl

/-- **Behind `k` tubes stand `2 * n * k` vertices,** so that tube `k` counts on from there. -/
theorem foldl_addTube (circle : List (Vec3 Float)) (ts : List (Tube Float)) : ∀ (k : Nat) (m : Mesh),
    m.vertexCount = 2 * circle.length * k →
      ts.foldl (addTube circle circle.length) m =
        { (ts.flatMap (Tube.vertices circle)).foldl Mesh.push m with
          indices := m.indices ++ (List.range' k ts.length).flatMap (tubeIndices circle.length) } := by
  induction ts with
  | nil =>
    intro k m _
    simp only [List.flatMap_nil, List.length_nil, List.range'_zero, List.foldl_nil, Array.appendList_nil]
  | cons t ts ih =>
    intro k m hm
    have hadd : addTube circle circle.length m t =
        { (t.vertices circle).foldl Mesh.push m with indices := m.indices ++ tubeIndices circle.length k } := by
      unfold addTube tubeIndices
      dsimp only
      rw [hm, Mesh.indices_foldl_push]
    have hcount : (addTube circle circle.length m t).vertexCount = 2 * circle.length * (k + 1) := by
      rw [hadd]
      show ((t.vertices circle).foldl Mesh.push m).vertexCount = _
      rw [Mesh.vertexCount_foldl_push, hm, length_vertices_tube, Nat.mul_succ]
    rw [List.foldl_cons, ih (k + 1) _ hcount, hadd, Mesh.foldl_push_with, List.flatMap_cons, List.foldl_append,
      List.length_cons, List.range'_succ, List.flatMap_cons]
    have hindices (xs ys : List UInt32) : m.indices ++ xs ++ ys = m.indices ++ (xs ++ ys) := Array.ext' (by simp)
    rw [← hindices]

/-- The mesh packs the vertices of all tubes. -/
theorem mesh_eq_ofVertices (s : Skeleton Float) (bark : Bark Float) :
    mesh s bark =
      .ofVertices (vertices s bark.textureScale (Ring.circle bark.radialSegments))
        (indices (tubes s bark.textureScale).length bark.radialSegments) := by
  have hfold := foldl_addTube (Ring.circle bark.radialSegments) (tubes s bark.textureScale) 0 .empty rfl
  rw [length_circle, ← List.range_eq_range'] at hfold
  refine hfold.trans ?_
  have hindices (xs : List UInt32) : (#[] : Array UInt32) ++ xs = xs.toArray := Array.ext' (by simp)
  rw [show Mesh.empty.indices = #[] from rfl, hindices]
  rfl

/-! ## Triangles -/

theorem toNat_connect {a : UInt32} {n : Nat} (h : a.toNat + 2 * n ≤ 4294967296) :
    (Ring.connect a (a + UInt32.ofNat n) n).map UInt32.toNat = (Tube.faces a.toNat n).flatMap threeItems := by
  rw [Ring.connect, Tube.faces, List.map_flatMap, List.flatMap_assoc]
  refine List.flatMap_congr fun i hi => ?_
  have hlt := List.mem_range.mp hi
  have hnext := (Tube.next_mod hlt).right_lt
  have hfar : (a + UInt32.ofNat n).toNat = a.toNat + n := UInt32.toNat_add_ofNat (by omega)
  have h1 : (a + UInt32.ofNat i).toNat = a.toNat + i := UInt32.toNat_add_ofNat (by omega)
  have h2 : (a + UInt32.ofNat ((i + 1) % n)).toNat = a.toNat + (i + 1) % n := UInt32.toNat_add_ofNat (by omega)
  have h3 : (a + UInt32.ofNat n + UInt32.ofNat i).toNat = a.toNat + n + i := by
    rw [UInt32.toNat_add_ofNat (by omega), hfar]
  have h4 : (a + UInt32.ofNat n + UInt32.ofNat ((i + 1) % n)).toNat = a.toNat + n + (i + 1) % n := by
    rw [UInt32.toNat_add_ofNat (by omega), hfar]
  simp only [List.map_cons, List.map_nil, h1, h2, h3, h4, List.flatMap_cons, List.flatMap_nil, threeItems,
    List.cons_append, List.nil_append]

/-- The triangles of a number of tubes. -/
def faces (n count : Nat) : List (Nat × Nat × Nat) := (List.range count).flatMap fun k => Tube.faces (2 * n * k) n

theorem toNat_indices {n count : Nat} (h : 2 * n * count ≤ 4294967296) :
    (indices count n).toList.map UInt32.toNat = (faces n count).flatMap threeItems := by
  rw [toList_indices, faces, List.map_flatMap, List.flatMap_assoc]
  refine List.flatMap_congr fun k hk => ?_
  have hroom : 2 * n * k + 2 * n ≤ 4294967296 := by
    have := Nat.mul_le_mul_left (2 * n) (Nat.succ_le_of_lt (List.mem_range.mp hk))
    rw [Nat.mul_succ] at this
    omega
  rcases Nat.eq_zero_or_pos n with rfl | hpos
  · rfl
  · have hfirst : (UInt32.ofNat (2 * n * k)).toNat = 2 * n * k := UInt32.toNat_ofNat_of_lt' (by
      rw [UInt32.size]
      omega)
    have hconnect := toNat_connect (a := UInt32.ofNat (2 * n * k)) (n := n) (by rw [hfirst]; exact hroom)
    rwa [hfirst] at hconnect

theorem length_faces (n count : Nat) : (faces n count).length = 2 * n * count := by
  rw [faces, length_flatMap_of_length (2 * n) fun _ _ => Tube.length_faces _ _, List.length_range, Nat.mul_comm]

theorem faces_take {n count k : Nat} (hk : k ≤ count) : (faces n count).take (2 * n * k) = faces n k := by
  rw [faces, take_flatMap_of_length (2 * n) fun _ _ => Tube.length_faces _ _, List.take_range, Nat.min_eq_left hk, faces]

theorem faces_block {n count k : Nat} (hk : k < count) :
    ((faces n count).drop (2 * n * k)).take (2 * n) = Tube.faces (2 * n * k) n :=
  block_flatMap_of_length (2 * n) (fun _ _ => Tube.length_faces _ _) (List.getElem?_range hk)

/-! ## Edges -/

section Edges

variable {n count k k' x y : Nat}

theorem mem_edges {e : Nat × Nat} :
    e ∈ Mesh.edgesOf (faces n count) ↔ ∃ k < count, e ∈ Mesh.edgesOf (Tube.faces (2 * n * k) n) := by
  simp only [Mesh.edgesOf, faces, List.flatMap_assoc, List.mem_flatMap (l := List.range count), List.mem_range]

theorem tube_eq (hlo : 2 * n * k ≤ x) (hhi : x < 2 * n * k + 2 * n) : x / (2 * n) = k :=
  Nat.div_eq_of_lt_le (by rwa [Nat.mul_comm]) (by rwa [Nat.succ_mul, Nat.mul_comm k])

theorem tube_eq_of_mem_edges {e : Nat × Nat} (h : e ∈ Mesh.edgesOf (Tube.faces (2 * n * k) n))
    (h' : e ∈ Mesh.edgesOf (Tube.faces (2 * n * k') n)) : k = k' := by
  obtain ⟨⟨hlo, hhi⟩, -⟩ := Tube.ends_of_mem_edges h
  obtain ⟨⟨hlo', hhi'⟩, -⟩ := Tube.ends_of_mem_edges h'
  rw [← tube_eq hlo hhi, tube_eq hlo' hhi']

/-- The reverse of an edge can only be an edge of the same tube. -/
theorem reverse_mem_tube (h : (x, y) ∈ Mesh.edgesOf (Tube.faces (2 * n * k) n))
    (hreverse : (y, x) ∈ Mesh.edgesOf (faces n count)) : (y, x) ∈ Mesh.edgesOf (Tube.faces (2 * n * k) n) := by
  obtain ⟨k', -, hk'⟩ := mem_edges.mp hreverse
  obtain ⟨⟨hlo, hhi⟩, -⟩ := Tube.ends_of_mem_edges h
  obtain ⟨-, hlo', hhi'⟩ := Tube.ends_of_mem_edges hk'
  rwa [← tube_eq hlo hhi, tube_eq hlo' hhi']

/-- **No directed edge occurs twice,** within a tube or in two of them. -/
theorem nodup_edges (hn : 3 ≤ n) (count : Nat) : (Mesh.edgesOf (faces n count)).Nodup := by
  rw [Mesh.edgesOf, faces, List.flatMap_assoc, List.nodup_flatMap]
  refine ⟨fun k _ => Tube.nodup_edges hn _, List.nodup_range.imp fun {k k'} hne => ?_⟩
  refine List.disjoint_left.mpr fun e he he' => ?_
  exact hne (tube_eq_of_mem_edges he he')

/-- Two vertices stand next to each other on one ring. -/
def RingNeighbours (n x y : Nat) : Prop :=
  x / n = y / n ∧ (y % n = (x % n + 1) % n ∨ x % n = (y % n + 1) % n)

theorem place {r i : Nat} (hi : i < n) : (n * r + i) / n = r ∧ (n * r + i) % n = i :=
  ⟨by rw [Nat.mul_add_div (by omega), Nat.div_eq_of_lt hi, Nat.add_zero], by rw [Nat.mul_add_mod, Nat.mod_eq_of_lt hi]⟩

/-- The edges along the rings are those that join neighbours; every other edge joins two rings. -/
theorem along_iff_ringNeighbours (h : (x, y) ∈ Mesh.edgesOf (Tube.faces (2 * n * k) n)) :
    Tube.Along (2 * n * k) n (x, y) ↔ RingNeighbours n x y := by
  have hstart : 2 * n * k = n * (2 * k) := by rw [Nat.mul_assoc, Nat.mul_left_comm]
  have hfinish : 2 * n * k + n = n * (2 * k + 1) := by rw [hstart, Nat.mul_succ]
  constructor
  · rintro ⟨i, j, hnext, hxy⟩
    have hi := hnext.lt
    have hj := hnext.right_lt
    rw [hfinish, hstart, Prod.mk.injEq, Prod.mk.injEq] at hxy
    rcases hxy with ⟨rfl, rfl⟩ | ⟨rfl, rfl⟩
    · simp only [RingNeighbours, place hi, place hj, ← hnext.eq_mod, or_true, and_true]
    · simp only [RingNeighbours, place hi, place hj, ← hnext.eq_mod, true_or, and_true]
  · rintro ⟨hring, -⟩
    obtain ⟨i, j, hnext, hxy⟩ := Tube.mem_edges.mp h
    have hi := hnext.lt
    have hj := hnext.right_lt
    rw [Tube.edgesAt, hfinish, hstart] at hxy
    simp only [List.mem_cons, List.not_mem_nil, or_false, Prod.mk.injEq] at hxy
    rcases hxy with ⟨rfl, rfl⟩ | ⟨rfl, rfl⟩ | ⟨rfl, rfl⟩ | ⟨rfl, rfl⟩ | ⟨rfl, rfl⟩ | ⟨rfl, rfl⟩
    -- two edges of a place run along its rings, the other four join ring `2 * k` and ring `2 * k + 1`
    case inr.inr.inl => exact ⟨i, j, hnext, Or.inl (by rw [hstart])⟩
    case inr.inr.inr.inr.inl => exact ⟨i, j, hnext, Or.inr (by rw [hfinish])⟩
    all_goals
      simp only [place hi, place hj] at hring
      omega

/-- **An edge lies on the boundary exactly if it joins neighbours on a ring.** -/
theorem boundary_iff (hn : 3 ≤ n) (h : (x, y) ∈ Mesh.edgesOf (faces n count)) :
    (y, x) ∉ Mesh.edgesOf (faces n count) ↔ RingNeighbours n x y := by
  obtain ⟨k, hk, htube⟩ := mem_edges.mp h
  rw [← along_iff_ringNeighbours htube]
  constructor
  · intro hreverse
    by_contra hoff
    exact hreverse (mem_edges.mpr ⟨k, hk, Tube.reverse_mem_edges htube hoff⟩)
  · intro halong hreverse
    exact halong.not_mem_edges hn (reverse_mem_tube htube hreverse)

theorem mem_boundary (hn : 3 ≤ n) :
    (x, y) ∈ Mesh.edgesOf (faces n count) ∧ (y, x) ∉ Mesh.edgesOf (faces n count) ↔
      ∃ k < count, Tube.Along (2 * n * k) n (x, y) := by
  constructor
  · rintro ⟨h, hreverse⟩
    obtain ⟨k, hk, htube⟩ := mem_edges.mp h
    exact ⟨k, hk, (along_iff_ringNeighbours htube).mpr ((boundary_iff hn h).mp hreverse)⟩
  · rintro ⟨k, hk, halong⟩
    have h : (x, y) ∈ Mesh.edgesOf (faces n count) := mem_edges.mpr ⟨k, hk, halong.mem_edges⟩
    exact ⟨h, (boundary_iff hn h).mpr ((along_iff_ringNeighbours halong.mem_edges).mp halong)⟩

end Edges

/-- **A mesh of open cylinders,** one behind the other, each between two rings of `n` vertices. -/
structure Cylinders (n count : Nat) (m : Mesh) : Prop where
  valid : m.hasValidShape = true
  vertexCount : m.vertexCount = 2 * n * count
  triangleCount : m.triangleCount = 2 * n * count
  /-- The triangles of cylinder `k` use all vertices of its rings and no others. -/
  slots : ∀ k < count, ∀ x, (∃ t ∈ (m.triangles.drop (2 * n * k)).take (2 * n), x ∈ threeItems t) ↔
    2 * n * k ≤ x ∧ x < 2 * n * k + 2 * n
  /-- The triangles are wound consistently. -/
  nodup : m.edges.Nodup
  boundary : ∀ x y, (x, y) ∈ m.edges → ((y, x) ∉ m.edges ↔ RingNeighbours n x y)
  /-- The boundary are the cycles along the rings, backwards along the first and forwards along the second. -/
  cycles : ∀ x y, (x, y) ∈ m.edges ∧ (y, x) ∉ m.edges ↔ ∃ k < count, ∃ i < n,
    (x, y) = (2 * n * k + (i + 1) % n, 2 * n * k + i) ∨ (x, y) = (2 * n * k + n + i, 2 * n * k + n + (i + 1) % n)

theorem along_iff_exists_mod {a n : Nat} {e : Nat × Nat} :
    Tube.Along a n e ↔ ∃ i < n, e = (a + (i + 1) % n, a + i) ∨ e = (a + n + i, a + n + (i + 1) % n) := by
  constructor
  · rintro ⟨i, j, hnext, he⟩
    exact ⟨i, hnext.lt, hnext.eq_mod ▸ he⟩
  · rintro ⟨i, hi, he⟩
    exact ⟨i, _, Tube.next_mod hi, he⟩

theorem cylinders_of_triangles {n count : Nat} {m : Mesh} (hn : 3 ≤ n) (hfits : m.Fits (2 * n * count))
    (htriangles : m.triangles = faces n count) : Cylinders n count m where
  valid := hfits.hasValidShape
  vertexCount := hfits.vertexCount
  triangleCount := by rw [← Mesh.length_triangles, htriangles, length_faces]
  slots k hk x := by rw [htriangles, faces_block hk, Tube.mem_faces]
  nodup := by rw [Mesh.edges, htriangles]; exact nodup_edges hn count
  boundary x y h := by rw [Mesh.edges, htriangles] at h ⊢; exact boundary_iff hn h
  cycles x y := by
    rw [Mesh.edges, htriangles, mem_boundary hn]
    simp only [along_iff_exists_mod]

/-! ## The mesh of a skeleton -/

section Surface

variable (s : Skeleton Float) (bark : Bark Float)

theorem triangles_mesh (hfit : 2 * bark.radialSegments * (tubes s bark.textureScale).length ≤ 4294967296) :
    (mesh s bark).triangles = faces bark.radialSegments (tubes s bark.textureScale).length := by
  rw [mesh_eq_ofVertices]
  exact Mesh.triangles_of_indices (toNat_indices hfit)

theorem fits_mesh (hfit : 2 * bark.radialSegments * (tubes s bark.textureScale).length ≤ 4294967296) :
    (mesh s bark).Fits (2 * bark.radialSegments * (tubes s bark.textureScale).length) := by
  have hindices := toNat_indices hfit
  have hcount := length_vertices s bark.textureScale (Ring.circle bark.radialSegments)
  rw [length_circle] at hcount
  rw [mesh_eq_ofVertices, ← hcount]
  refine Mesh.fits_ofVertices _ ?_ fun i hi => ?_
  · have hsize := congrArg List.length hindices
    rw [List.length_map, Array.length_toList, length_flatMap_of_length 3 fun _ _ => rfl] at hsize
    omega
  · have hmem : i.toNat ∈ (faces bark.radialSegments (tubes s bark.textureScale).length).flatMap threeItems :=
      hindices ▸ List.mem_map_of_mem hi.val
    obtain ⟨t, ht, hx⟩ := List.mem_flatMap.mp hmem
    obtain ⟨k, hk, ht⟩ := List.mem_flatMap.mp ht
    have hlast := (Tube.mem_faces.mp ⟨t, ht, hx⟩).2
    have hroom := Nat.mul_le_mul_left (2 * bark.radialSegments) (Nat.succ_le_of_lt (List.mem_range.mp hk))
    rw [Nat.mul_succ] at hroom
    omega

theorem vertices_upTo (k : Nat) (directions : List (Vec3 Float)) :
    vertices (s.upTo k) bark.textureScale directions =
      (vertices s bark.textureScale directions).take (2 * directions.length * k) := by
  rw [vertices, vertices, tubes_upTo, take_flatMap_of_length _ fun t _ => length_vertices_tube directions t]

/-- **The mesh grows segment by segment:** that of the first drawn segments is a beginning of the whole. -/
theorem mesh_upTo (hfit : 2 * bark.radialSegments * s.drawn.length ≤ 4294967296) {k : Nat} (hk : k ≤ s.drawn.length) :
    (mesh (s.upTo k) bark).positions.toList =
        (mesh s bark).positions.toList.take (3 * (2 * bark.radialSegments * k)) ∧
      (mesh (s.upTo k) bark).triangles = (mesh s bark).triangles.take (2 * bark.radialSegments * k) := by
  have hlength : (tubes (s.upTo k) bark.textureScale).length = k := by
    rw [tubes_upTo, List.length_take, length_tubes, Nat.min_eq_left hk]
  have hvertices := vertices_upTo s bark k (Ring.circle bark.radialSegments)
  rw [length_circle] at hvertices
  constructor
  · rw [mesh_eq_ofVertices, mesh_eq_ofVertices, Mesh.positions_ofVertices, Mesh.positions_ofVertices, hvertices,
      take_flatMap_of_length 3 fun _ _ => rfl]
  · have hpart : 2 * bark.radialSegments * k ≤ 2 * bark.radialSegments * s.drawn.length := Nat.mul_le_mul_left _ hk
    rw [triangles_mesh _ _ (by rw [hlength]; omega), hlength, triangles_mesh s bark (by rwa [length_tubes]),
      length_tubes, faces_take hk]

/-- Segments that are not drawn can be removed. -/
theorem mesh_drawn : mesh { s with segments := s.drawn.toArray } bark = mesh s bark := by
  have htubes := tubes_upTo s bark.textureScale s.drawn.length
  rw [List.take_of_length_le (Nat.le_of_eq (length_tubes s bark.textureScale)), Skeleton.upTo,
    List.take_length] at htubes
  simp only [mesh_eq_ofVertices, vertices, htubes]

/-- **Every drawn segment becomes an open cylinder of its own.** The mesh of a skeleton is a row of cylinders, one for
every segment whose two nodes exist, in the order of the segments; the other segments can be removed. -/
theorem mesh_topology (hn : 3 ≤ bark.radialSegments) (hfit : 2 * bark.radialSegments * s.drawn.length ≤ 4294967296) :
    Cylinders bark.radialSegments s.drawn.length (mesh s bark) ∧
      mesh { s with segments := s.drawn.toArray } bark = mesh s bark ∧
      ∀ k ≤ s.drawn.length,
        (mesh (s.upTo k) bark).positions.toList =
            (mesh s bark).positions.toList.take (3 * (2 * bark.radialSegments * k)) ∧
          (mesh (s.upTo k) bark).triangles = (mesh s bark).triangles.take (2 * bark.radialSegments * k) := by
  have hfit' : 2 * bark.radialSegments * (tubes s bark.textureScale).length ≤ 4294967296 := by rwa [length_tubes]
  refine ⟨?_, mesh_drawn s bark, fun k hk => mesh_upTo s bark hfit hk⟩
  rw [← length_tubes s bark.textureScale]
  exact cylinders_of_triangles hn (fits_mesh s bark hfit') (triangles_mesh s bark hfit')

end Surface

/-- An elbow of two segments, with a third between them that leads nowhere. -/
def elbow : Skeleton Float where
  nodes := #[⟨0, ⟨0, 0, 0⟩, .identity, 1, none, 0, false, false⟩, ⟨1, ⟨0, 1, 0⟩, .identity, 0.5, some 0, 0, false, false⟩,
    ⟨2, ⟨1, 1, 0⟩, .identity, 0.25, some 1, 0, true, false⟩]
  segments := #[⟨0, 1, 1, 1, 0.5⟩, ⟨1, 7, 1, 0.5, 0.5⟩, ⟨1, 2, 1, 0.5, 0.25⟩]
  leaves := #[]

/-- With five vertices in a ring the elbow is a row of two cylinders. -/
theorem mesh_topology_elbow : elbow.drawn.length = 2 ∧ Cylinders 5 2 (mesh elbow ⟨5, 1⟩) ∧
    (mesh elbow ⟨5, 1⟩).triangleCount = 20 := by
  have hdrawn : elbow.drawn.length = 2 := by decide +kernel
  have hfit : 2 * 5 * elbow.drawn.length ≤ 4294967296 := by rw [hdrawn]; decide
  have hcylinders := (mesh_topology elbow ⟨5, 1⟩ (by decide) hfit).1
  rw [hdrawn] at hcylinders
  exact ⟨hdrawn, hcylinders, hcylinders.triangleCount⟩

end Branch

end Arbor
