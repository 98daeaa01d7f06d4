import Arbor.Proofs.Branch.Topology

/-!
# The texture of branches

The texture is wound around each ring, from zero up to but not including one, and laid along the drawn segments: behind
the first `k` of them it stands at `Branch.textureAt`, the sum of the pieces that they take, added up from the left. Tube
`k` runs from there to the same of `k + 1` (`Branch.getElem?_tubes`), so the whole texture can be written down at once
(`Branch.texture_vertices`), and it has no seam from a tube to the next (`Branch.texture_seamless`).
-/

namespace Arbor

open scoped Scalar

/-- The place of a vertex in the texture. -/
def Vertex.texture {α : Type} (p : Vertex α) : α × α := (p.u, p.v)

namespace Branch

section Along

variable {α : Type} [Scalar α] (s : Skeleton α) (textureScale : α)

/-! ## Along the segments -/

/-- Where the texture stands behind the first `k` drawn segments. -/
def textureAt (k : Nat) : α := Scalar.sum ((s.drawn.take k).map fun seg => seg.length * textureScale)

theorem textureAt_zero : textureAt s textureScale 0 = 0 := rfl

theorem textureAt_succ {k : Nat} {seg : Segment α} (h : s.drawn[k]? = some seg) :
    textureAt s textureScale (k + 1) = textureAt s textureScale k + seg.length * textureScale := by
  rw [textureAt, List.take_add_one, h, Option.toList_some, List.map_append, Scalar.sum, List.foldl_append]
  rfl

/-- A segment whose nodes exist is drawn as one tube, and moves the texture on by its piece. -/
theorem tube_drawn (v : α) {seg : Segment α} (h : s.hasEnds seg = true) :
    ∃ t : Tube α, tube s textureScale v seg = ([t], v + seg.length * textureScale) ∧ t.segment = seg ∧
      t.vStart = v ∧ t.vFinish = v + seg.length * textureScale := by
  unfold Skeleton.hasEnds at h
  obtain ⟨hstart, hfinish⟩ := Bool.and_eq_true_iff.mp h
  obtain ⟨start, hstart⟩ := Option.isSome_iff_exists.mp hstart
  obtain ⟨finish, hfinish⟩ := Option.isSome_iff_exists.mp hfinish
  refine ⟨⟨seg, start, finish, v, v + seg.length * textureScale⟩, ?_, rfl, rfl, rfl⟩
  unfold tube
  rw [hstart, hfinish]

/-- Drawn segments move the texture on by their pieces. -/
theorem run_tube_snd {segs : List (Segment α)} (h : ∀ seg ∈ segs, s.hasEnds seg = true) (v : α) :
    ((tube s textureScale).run v segs).2 = (segs.map fun seg => seg.length * textureScale).foldl (· + ·) v := by
  induction segs generalizing v with
  | nil => rfl
  | cons seg segs ih =>
    obtain ⟨t, htube, -⟩ := tube_drawn s textureScale v (h seg List.mem_cons_self)
    rw [Transducer.run_cons, htube, ih fun seg' hseg => h seg' (List.mem_cons_of_mem seg hseg)]
    rfl

/-- **Tube `k` is the one of drawn segment `k`,** with the texture from behind the segments before it to behind itself. -/
theorem getElem?_tubes {k : Nat} {seg : Segment α} (h : s.drawn[k]? = some seg) :
    ∃ t, (tubes s textureScale)[k]? = some t ∧ t.segment = seg ∧ t.vStart = textureAt s textureScale k ∧
      t.vFinish = textureAt s textureScale (k + 1) := by
  obtain ⟨hk, hseg⟩ := List.getElem?_eq_some_iff.mp h
  have hends : ∀ seg ∈ s.drawn, s.hasEnds seg = true := fun _ hmem => (List.mem_filter.mp hmem).2
  have hbefore : ((tube s textureScale).run 0 (s.drawn.take k)).2 = textureAt s textureScale k :=
    run_tube_snd s textureScale (fun _ hmem => hends _ (List.mem_of_mem_take hmem)) 0
  have hlength : ((tube s textureScale).run 0 (s.drawn.take k)).1.length = k := by
    rw [Transducer.length_run fun _ hmem v => length_tube s textureScale v (hends _ (List.mem_of_mem_take hmem)),
      List.length_take, Nat.min_eq_left (Nat.le_of_lt hk)]
  obtain ⟨t, htube, hsegment, hstart, hfinish⟩ :=
    tube_drawn s textureScale (textureAt s textureScale k) (hends seg (List.mem_of_getElem? h))
  refine ⟨t, ?_, hsegment, hstart, hfinish.trans (textureAt_succ s textureScale h).symm⟩
  have hsplit : s.drawn = s.drawn.take k ++ seg :: s.drawn.drop (k + 1) := by
    rw [← hseg, ← List.drop_eq_getElem_cons hk, List.take_append_drop]
  rw [tubes, ← run_drawn, hsplit, Transducer.run_append, hbefore, Transducer.run_cons, htube,
    List.getElem?_append_right (Nat.le_of_eq hlength), hlength, Nat.sub_self]
  rfl

/-- The texture of the tubes, from start to end. -/
theorem texture_tubes : (tubes s textureScale).map (fun t => (t.vStart, t.vFinish)) =
    (List.range s.drawn.length).map fun k => (textureAt s textureScale k, textureAt s textureScale (k + 1)) := by
  refine List.ext_getElem? fun k => ?_
  rw [List.getElem?_map, List.getElem?_map]
  rcases Nat.lt_or_ge k s.drawn.length with hk | hk
  · obtain ⟨t, ht, -, hstart, hfinish⟩ := getElem?_tubes s textureScale (List.getElem?_eq_getElem hk)
    rw [ht, List.getElem?_range hk, Option.map_some, Option.map_some, hstart, hfinish]
  · rw [List.getElem?_eq_none (by rwa [length_tubes]), List.getElem?_eq_none (by rwa [List.length_range])]
    rfl

end Along

/-! ## Around the rings -/

section Around

variable {α : Type} [Scalar α]

/-- The texture of a ring of `n` vertices. -/
def ringTexture (n : Nat) (v : α) : List (α × α) :=
  (List.range n).map fun i => (Scalar.ofNat i / Scalar.ofNat n, v)

theorem length_ringTexture (n : Nat) (v : α) : (ringTexture n v).length = n := by
  rw [ringTexture, List.length_map, List.length_range]

theorem getElem?_ringTexture {n i : Nat} (hi : i < n) (v : α) :
    (ringTexture n v)[i]? = some (Scalar.ofNat i / Scalar.ofNat n, v) := by
  rw [ringTexture, List.getElem?_map, List.getElem?_range hi, Option.map_some]

theorem texture_ring (directions : List (Vec3 α)) (center : Vec3 α) (orientation : Quat α) (radius v : α) :
    ((Ring.around directions center orientation radius).vertices v).map Vertex.texture =
      ringTexture directions.length v := by
  have hvertices (r : Ring α) : (r.vertices v).map Vertex.texture = ((r.positions.zip r.normals).zipIdx.map Prod.snd).map
      fun i => (Scalar.ofNat i / Scalar.ofNat r.positions.length, v) := by
    rw [Ring.vertices, List.map_map, List.map_map]
    rfl
  have hpositions : (Ring.around directions center orientation radius).positions.length = directions.length :=
    List.length_map _
  have hzip : ((Ring.around directions center orientation radius).positions.zip
      (Ring.around directions center orientation radius).normals).length = directions.length := by
    simp only [Ring.around, List.length_zip, List.length_map, Nat.min_self]
  rw [hvertices, List.zipIdx_map_snd, hzip, hpositions, ← List.range_eq_range', ringTexture]

/-- The texture of a tube. -/
theorem texture_tube (directions : List (Vec3 α)) (t : Tube α) : (t.vertices directions).map Vertex.texture =
    ringTexture directions.length t.vStart ++ ringTexture directions.length t.vFinish := by
  rw [Tube.vertices, List.map_append, Tube.startRing, Tube.finishRing, texture_ring, texture_ring]

/-- The texture of tube `k` of a skeleton, of its first ring and of its second. -/
def tubeTexture (s : Skeleton α) (textureScale : α) (n k : Nat) : List (α × α) :=
  (List.range 2).flatMap fun ring => ringTexture n (textureAt s textureScale (k + ring))

theorem length_tubeTexture (s : Skeleton α) (textureScale : α) (n k : Nat) :
    (tubeTexture s textureScale n k).length = 2 * n := by
  rw [tubeTexture, length_flatMap_of_length n fun _ _ => length_ringTexture n _, List.length_range]

/-- **The texture of all branches,** tube by tube, ring by ring and vertex by vertex. -/
theorem texture_vertices (s : Skeleton α) (textureScale : α) (directions : List (Vec3 α)) :
    (vertices s textureScale directions).map Vertex.texture =
      (List.range s.drawn.length).flatMap (tubeTexture s textureScale directions.length) := by
  have htubes := congrArg (List.flatMap fun v : α × α =>
    ringTexture directions.length v.1 ++ ringTexture directions.length v.2) (texture_tubes s textureScale)
  rw [List.flatMap_map, List.flatMap_map] at htubes
  rw [vertices, List.map_flatMap]
  calc (tubes s textureScale).flatMap (fun t => (t.vertices directions).map Vertex.texture)
      = (tubes s textureScale).flatMap fun t =>
          ringTexture directions.length t.vStart ++ ringTexture directions.length t.vFinish := by
        simp only [texture_tube]
    _ = (List.range s.drawn.length).flatMap fun k => ringTexture directions.length (textureAt s textureScale k) ++
          ringTexture directions.length (textureAt s textureScale (k + 1)) := htubes
    _ = (List.range s.drawn.length).flatMap (tubeTexture s textureScale directions.length) := by
        refine List.flatMap_congr fun k _ => ?_
        exact congrArg (ringTexture _ _ ++ ·) (List.append_nil _).symm

/-- Vertex `i` of ring `ring` of tube `k`. -/
theorem getElem?_texture (s : Skeleton α) (textureScale : α) (directions : List (Vec3 α)) {k ring i : Nat}
    (hk : k < s.drawn.length) (hring : ring < 2) (hi : i < directions.length) :
    ((vertices s textureScale directions).map Vertex.texture)[2 * directions.length * k + directions.length * ring + i]? =
      some (Scalar.ofNat i / Scalar.ofNat directions.length, textureAt s textureScale (k + ring)) := by
  have hplace : directions.length * ring + i < 2 * directions.length := by
    have := Nat.mul_le_mul_left directions.length (Nat.le_of_lt_succ hring)
    omega
  rw [texture_vertices, Nat.add_assoc,
    getElem?_flatMap_of_length _ (fun k _ => length_tubeTexture s textureScale directions.length k)
      (List.getElem?_range hk) hplace, tubeTexture,
    getElem?_flatMap_of_length _ (fun _ _ => length_ringTexture _ _) (List.getElem?_range hring) hi,
    getElem?_ringTexture hi]

theorem snd_of_mem_ringTexture {n : Nat} {v : α} {x : α × α} (hx : x ∈ ringTexture n v) : x.2 = v := by
  obtain ⟨i, -, rfl⟩ := List.mem_map.mp hx
  rfl

theorem snd_of_mem_tubeTexture {s : Skeleton α} {textureScale : α} {n k : Nat} {x : α × α}
    (hx : x ∈ tubeTexture s textureScale n k) :
    ∃ ring < 2, x.2 = textureAt s textureScale (k + ring) := by
  obtain ⟨ring, hring, hx⟩ := List.mem_flatMap.mp hx
  exact ⟨ring, List.mem_range.mp hring, snd_of_mem_ringTexture hx⟩

/-- What holds of any place along the segments and any later one holds of any vertex and any later one. -/
theorem pairwise_v {s : Skeleton α} {textureScale : α} {R : α → α → Prop}
    (hv : ∀ {k l}, k ≤ l → R (textureAt s textureScale k) (textureAt s textureScale l)) (directions : List (Vec3 α)) :
    ((vertices s textureScale directions).map Vertex.v).Pairwise R := by
  have htexture : ((vertices s textureScale directions).map Vertex.texture).Pairwise fun x y => R x.2 y.2 := by
    rw [texture_vertices, List.pairwise_flatMap]
    refine ⟨fun k _ => ?_, List.pairwise_lt_range.imp fun {k l} hkl x hx y hy => ?_⟩
    · rw [tubeTexture, List.pairwise_flatMap]
      refine ⟨fun ring _ => ?_, List.pairwise_lt_range.imp fun {ring ring'} hring x hx y hy => ?_⟩
      · refine List.pairwise_of_forall_mem_list fun x hx y hy => ?_
        rw [snd_of_mem_ringTexture hx, snd_of_mem_ringTexture hy]
        exact hv (Nat.le_refl _)
      · rw [snd_of_mem_ringTexture hx, snd_of_mem_ringTexture hy]
        exact hv (by omega)
    · -- the last ring of a tube is level with the first ring of the next
      obtain ⟨ring, hring, hx⟩ := snd_of_mem_tubeTexture hx
      obtain ⟨ring', -, hy⟩ := snd_of_mem_tubeTexture hy
      rw [hx, hy]
      exact hv (by omega)
  rw [List.pairwise_map] at htexture ⊢
  exact htexture

end Around

/-! ## The mesh of a skeleton -/

/-- **A texture without seams:** in a mesh of `count` tubes with `n` vertices in a ring, the texture coordinates lead once
around each ring, and from the height `v k` at the start of tube `k` to `v (k + 1)` at its end, where the next one starts. -/
structure Seamless (n count : Nat) (v : Nat → Float) (m : Mesh) : Prop where
  size : m.uvs.size = 2 * (2 * n * count)
  /-- Vertex `i` of a ring stands at `i / n`. -/
  u : ∀ k < count, ∀ ring < 2, ∀ i < n,
    m.uvs[2 * (2 * n * k + n * ring + i)]? = some (Float.ofNat i / Float.ofNat n).toSingle
  /-- All vertices of a ring stand at one height. -/
  v : ∀ k < count, ∀ ring < 2, ∀ i < n, m.uvs[2 * (2 * n * k + n * ring + i) + 1]? = some (v (k + ring)).toSingle
  /-- Each tube goes on where the one before has ended. -/
  joint : ∀ k, k + 1 < count → ∀ i < n, ∀ j < n,
    m.uvs[2 * (2 * n * k + n + i) + 1]? = m.uvs[2 * (2 * n * (k + 1) + j) + 1]?

section Surface

variable (s : Skeleton Float) (bark : Bark Float)

theorem uvs_mesh : (mesh s bark).uvs.toList =
    ((vertices s bark.textureScale (Ring.circle bark.radialSegments)).map Vertex.texture).flatMap fun t =>
      [t.1.toSingle, t.2.toSingle] := by
  rw [mesh_eq_ofVertices, Mesh.uvs_ofVertices, List.flatMap_map]
  rfl

/-- The texture coordinates of vertex `i` of ring `ring` of tube `k`. -/
theorem getElem?_uvs {k ring i : Nat} (hk : k < s.drawn.length) (hring : ring < 2) (hi : i < bark.radialSegments) :
    let place := 2 * bark.radialSegments * k + bark.radialSegments * ring + i
    (mesh s bark).uvs[2 * place]? = some (Float.ofNat i / Float.ofNat bark.radialSegments).toSingle ∧
      (mesh s bark).uvs[2 * place + 1]? = some (textureAt s bark.textureScale (k + ring)).toSingle := by
  intro place
  have hvertex := getElem?_texture s bark.textureScale (Ring.circle bark.radialSegments) hk hring
    (by rwa [length_circle])
  rw [length_circle] at hvertex
  rw [← Array.getElem?_toList, ← Array.getElem?_toList, uvs_mesh]
  have hfirst := getElem?_flatMap_of_length 2 (f := fun t : Float × Float => [t.1.toSingle, t.2.toSingle])
    (fun _ _ => rfl) hvertex (show 0 < 2 by decide)
  have hsecond := getElem?_flatMap_of_length 2 (f := fun t : Float × Float => [t.1.toSingle, t.2.toSingle])
    (fun _ _ => rfl) hvertex (show 1 < 2 by decide)
  exact ⟨hfirst, hsecond⟩

theorem seamless_mesh :
    Seamless bark.radialSegments s.drawn.length (textureAt s bark.textureScale) (mesh s bark) where
  size := by
    rw [← Array.length_toList, uvs_mesh, length_flatMap_of_length 2 fun _ _ => rfl, List.length_map, length_vertices,
      length_circle, length_tubes, Nat.mul_comm]
  u k hk ring hring i hi := (getElem?_uvs s bark hk hring hi).1
  v k hk ring hring i hi := (getElem?_uvs s bark hk hring hi).2
  joint k hk i hi j hj := by
    have hend := (getElem?_uvs s bark (Nat.lt_of_succ_lt hk) (show 1 < 2 by decide) hi).2
    have hstart := (getElem?_uvs s bark hk (show 0 < 2 by decide) hj).2
    rw [Nat.mul_one] at hend
    exact hend.trans hstart.symm

end Surface

/-- **The texture of the bark is seamless along the segments.** It starts at zero, each drawn segment moves it on by its
length in texture, so that behind `k` of them it stands at the sum of these, added up from the left, and a segment
without one of its nodes leaves no trace. Tube `k` runs from there to the height behind its own segment, and so do the
coordinates of its vertices in the mesh. -/
theorem texture_seamless (s : Skeleton Float) (bark : Bark Float) :
    let v := textureAt s bark.textureScale
    v 0 = 0 ∧ (∀ k, v k = ((s.drawn.take k).map fun seg => seg.length * bark.textureScale).foldl (· + ·) 0) ∧
    (∀ k seg, s.drawn[k]? = some seg → v (k + 1) = v k + seg.length * bark.textureScale ∧
      ∃ t, (tubes s bark.textureScale)[k]? = some t ∧ t.segment = seg ∧ t.vStart = v k ∧ t.vFinish = v (k + 1)) ∧
    Seamless bark.radialSegments s.drawn.length v (mesh s bark) ∧
    mesh { s with segments := s.drawn.toArray } bark = mesh s bark :=
  ⟨textureAt_zero s bark.textureScale, fun _ => rfl,
    fun _ _ h => ⟨textureAt_succ s bark.textureScale h, getElem?_tubes s bark.textureScale h⟩,
    seamless_mesh s bark, mesh_drawn s bark⟩

/-- At the joint of the elbow, behind a first segment of length one and one that leads nowhere, the texture stands at the
scale. -/
theorem texture_seamless_elbow : textureAt elbow 0.5 1 = 0.5 ∧ textureAt elbow 0.5 2 = 1 ∧
    (mesh elbow ⟨5, 0.5⟩).uvs[2 * (2 * 5 * 0 + 5 + 3) + 1]? = some (0.5 : Float).toSingle ∧
    (mesh elbow ⟨5, 0.5⟩).uvs[2 * (2 * 5 * 1 + 4) + 1]? = some (0.5 : Float).toSingle := by
  have hheight : textureAt elbow 0.5 1 = 0.5 := by decide +kernel
  have htip : textureAt elbow 0.5 2 = 1 := by decide +kernel
  have hdrawn : elbow.drawn.length = 2 := by decide +kernel
  obtain ⟨-, -, -, hseamless, -⟩ := texture_seamless elbow ⟨5, 0.5⟩
  have hjoint := hseamless.joint 0 (by rw [hdrawn]; decide) 3 (by decide) 4 (by decide)
  have hstart := hseamless.v 1 (by rw [hdrawn]; decide) 0 (by decide) 4 (by decide)
  rw [Nat.mul_zero, Nat.add_zero, Nat.add_zero, hheight] at hstart
  exact ⟨hheight, htip, hjoint.trans hstart, hstart⟩

end Branch
end Arbor
