import Arbor.Proofs.Export.Rows

/-!
# The object file is the merged mesh

A reader that knows nothing of groups finds one mesh in an object file: the branches with the baked leaves behind them
(`text_merged`). Faces count positions, places in the texture and normals alike, from one on through the whole file,
and still name only what stands above them in their own group (`Resolved`): a group starts with as many of each as there
are vertices before it.
-/

namespace Arbor

/-- The leaves that are baked fit together with the branches if all vertices can be numbered. -/
theorem Tree.fits_bakedLeaves {t : Tree} (hleaf : ∀ shape ∈ t.leaf, shape.hasValidShape = true) {count : Nat}
    (hbranches : t.branches.Fits count) (h : (t.branches ++ t.bakedLeaves).vertexCount < 4294967296) :
    ∃ baked, t.bakedLeaves.Fits baked ∧ count + baked < 4294967296 := by
  rw [Mesh.vertexCount, Mesh.append_def, Array.size_append, hbranches.positions] at h
  unfold Tree.bakedLeaves at h ⊢
  cases hshape : t.leaf with
  | none =>
    rw [hshape] at h
    have hempty : Mesh.empty.positions.size = 0 := rfl
    exact ⟨0, Mesh.fits_empty, by simp only [Option.map_none, Option.getD_none, hempty] at h; omega⟩
  | some shape =>
    rw [hshape] at h
    have hfits := Mesh.hasValidShape_iff.mp (hleaf shape hshape)
    have hsize := Foliage.size_positions_bake hfits t.foliage
    simp only [Option.map_some, Option.getD_some, hsize] at h
    have htotal : t.foliage.bakedMatrices.length * shape.vertexCount < 4294967296 - count := by omega
    exact ⟨_, Foliage.fits_bake hfits t.foliage (by omega), by omega⟩

namespace Obj

/-! ## Faces and the rows above them -/

/-- The corners of a face name rows that stand above it, behind the start of its group. -/
def Resolves (above : List (List String)) (corners : List String) : Prop :=
  ∃ before name inside, above = before ++ ["o", name] :: inside ∧ items "o" inside = [] ∧
    ∀ c ∈ corners, ∃ k, readCorner c = some k ∧ ∀ keyword ∈ ["v", "vt", "vn"],
      (items keyword before).length ≤ k ∧ k < (items keyword before).length + (items keyword inside).length

/-- All faces of a table resolve, below other rows. -/
def Resolved (above table : List (List String)) : Prop :=
  ∀ before corners behind, table = before ++ ("f" :: corners) :: behind → Resolves (above ++ before) corners

theorem resolved_of_items_eq_nil {table : List (List String)} (h : items "f" table = []) (above : List (List String)) :
    Resolved above table := by
  rintro before corners behind rfl
  exact absurd rfl (items_eq_nil.mp h ("f" :: corners) (by simp))

theorem Resolved.append {above xs ys : List (List String)} (hxs : Resolved above xs) (hys : Resolved (above ++ xs) ys) :
    Resolved above (xs ++ ys) := by
  intro before corners behind h
  rcases List.append_eq_append_iff.mp h with ⟨middle, rfl, hy⟩ | ⟨middle, rfl, hx⟩
  · rw [← List.append_assoc]
    exact hys middle corners behind hy
  · cases middle with
    | nil =>
      have hrest := hys [] corners behind hx.symm
      rwa [List.append_nil, List.append_nil] at hrest
    | cons row middle =>
      obtain ⟨rfl, rfl⟩ := List.cons.inj hx
      exact hxs before corners middle rfl

/-- **The faces of a group resolve** if its base is the number of rows of every kind above it. -/
theorem resolved_groupRows {m : Mesh} {count : Nat} (hm : m.Fits count) {base : UInt32}
    (hcount : base.toNat + count < 4294967296) {above : List (List String)}
    (habove : ∀ keyword ∈ ["v", "vt", "vn"], (items keyword above).length = base.toNat) (name : String) :
    Resolved above (groupRows name m base) := by
  unfold groupRows
  split
  · exact resolved_of_items_eq_nil rfl above
  obtain ⟨hv, hvt, hvn, hf, ho⟩ := items_vertexRows m
  have hstart : items "f" (["o", name] :: vertexRows m) = [] := (items_cons_ne (by decide) _ _).trans hf
  have hfaces : Resolved (above ++ ["o", name] :: vertexRows m) (faceRows base m) := by
    intro before corners behind h
    -- all rows of vertices stand above a face, so it is enough that its corners are below their number
    obtain ⟨done, rest, htriples, rfl, hrest⟩ := List.map_eq_append_iff.mp h
    obtain ⟨t, behind, rfl, hcorners, -⟩ := List.map_eq_cons_iff.mp hrest
    obtain rfl := (List.cons.inj hcorners).2
    refine ⟨above, name, vertexRows m ++ done.map (fun t => "f" :: faceWords base t), ?_, ?_, fun c hc => ?_⟩
    · rw [List.append_assoc, List.cons_append]
    · rw [items_append, ho, items_map_ne (by decide)]
      rfl
    · obtain ⟨i, hi, rfl⟩ := List.mem_map.mp hc
      have ht : t ∈ inThrees m.indices.toList := by
        rw [← toList_triples, htriples]
        simp
      have hlt := hm.index i (Array.mem_toList_iff.mp (mem_of_mem_inThrees ht i hi))
      refine ⟨_, readCorner_corner (by omega), fun keyword hkeyword => ?_⟩
      have hrows := length_items_vertexRows hm keyword hkeyword
      rw [habove keyword hkeyword, items_append, List.length_append, hrows]
      omega
  have hend : ∀ above, Resolved above [[""]] := resolved_of_items_eq_nil rfl
  exact ((resolved_of_items_eq_nil hstart above).append hfaces).append (hend _)

/-! ## The file -/

/-- **A table holds a mesh.** -/
structure Holds (table : List (List String)) (m : Mesh) : Prop where
  positions : items "v" table = (triples m.positions).toList.map vectorWords
  uvs : items "vt" table = (pairs m.uvs).toList.map textureWords
  normals : items "vn" table = (triples m.normals).toList.map vectorWords
  faces : (items "f" table).map readFace = m.triangles.map some
  resolved : Resolved [] table

section File

variable {t : Tree} {count baked : Nat}

theorem toNat_vertexCount (hbranches : t.branches.Fits count) (hcount : count < 4294967296) :
    (UInt32.ofNat t.branches.vertexCount).toNat = count := by
  rw [hbranches.vertexCount, UInt32.toNat_ofNat_of_lt' (by rw [UInt32.size]; omega)]

theorem items_text_vertex (hbranches : t.branches.Fits count) (hleaves : t.bakedLeaves.Fits baked) :
    ∀ keyword ∈ ["v", "vt", "vn"],
      items keyword (rows (text t)) = items keyword (vertexRows t.branches) ++ items keyword (vertexRows t.bakedLeaves) := by
  intro keyword hkeyword
  obtain ⟨hhead, hend, -⟩ := vertex_keyword keyword hkeyword
  rw [items_text t hhead hend, (items_groupRows hbranches _ _).1 keyword hkeyword,
    (items_groupRows hleaves _ _).1 keyword hkeyword]

/-- **All faces of the file resolve.** -/
theorem resolved_text (hbranches : t.branches.Fits count) (hleaves : t.bakedLeaves.Fits baked)
    (hcount : count + baked < 4294967296) : Resolved [] (rows (text t)) := by
  have hbase := toNat_vertexCount hbranches (by omega)
  have hhead : ∀ keyword ∈ ["v", "vt", "vn"], (items keyword (headRows t.stats)).length = 0 := by
    intro keyword hkeyword
    obtain ⟨hcomment, hend, -⟩ := vertex_keyword keyword hkeyword
    rw [items_headRows _ hcomment hend, List.length_nil]
  have habove : ∀ keyword ∈ ["v", "vt", "vn"],
      (items keyword (headRows t.stats ++ groupRows "branches" t.branches 0)).length =
        (UInt32.ofNat t.branches.vertexCount).toNat := by
    intro keyword hkeyword
    rw [items_append, List.length_append, hhead keyword hkeyword, (items_groupRows hbranches _ _).1 keyword hkeyword,
      length_items_vertexRows hbranches keyword hkeyword, hbase, Nat.zero_add]
  have hzero : (0 : UInt32).toNat + count < 4294967296 := by
    rw [UInt32.toNat_zero]
    omega
  rw [rows_text]
  have hcomments : Resolved [] (headRows t.stats) :=
    resolved_of_items_eq_nil (items_headRows _ (by decide) (by decide)) []
  have htrunk : Resolved ([] ++ headRows t.stats) (groupRows "branches" t.branches 0) :=
    resolved_groupRows hbranches hzero hhead "branches"
  have hcrown : Resolved ([] ++ (headRows t.stats ++ groupRows "branches" t.branches 0))
      (groupRows "leaves" t.bakedLeaves (UInt32.ofNat t.branches.vertexCount)) :=
    resolved_groupRows hleaves (by rwa [hbase]) habove "leaves"
  exact ((hcomments.append htrunk).append hcrown).append (resolved_of_items_eq_nil rfl _)

theorem holds_rows (hbranches : t.branches.Fits count) (hleaves : t.bakedLeaves.Fits baked)
    (hcount : count + baked < 4294967296) : Holds (rows (text t)) (t.branches ++ t.bakedLeaves) := by
  have hbase := toNat_vertexCount hbranches (by omega)
  have hvertex := items_text_vertex hbranches hleaves
  obtain ⟨hv, hvt, hvn, -⟩ := items_vertexRows t.branches
  obtain ⟨hv', hvt', hvn', -⟩ := items_vertexRows t.bakedLeaves
  have hzero : (0 : UInt32).toNat + count < 4294967296 := by
    rw [UInt32.toNat_zero]
    omega
  have hfaces := faces_groupRows hbranches hzero "branches"
  have hfaces' := faces_groupRows hleaves (by rwa [hbase]) "leaves"
  refine ⟨?_, ?_, ?_, ?_, resolved_text hbranches hleaves hcount⟩
  · rw [hvertex "v" (by decide), hv, hv', Mesh.append_def, ← List.map_append,
      toList_triples_append (by rw [hbranches.positions]; omega)]
  · rw [hvertex "vt" (by decide), hvt, hvt', Mesh.append_def, ← List.map_append,
      toList_pairs_append (by rw [hbranches.uvs]; omega)]
  · rw [hvertex "vn" (by decide), hvn, hvn', Mesh.append_def, ← List.map_append,
      toList_triples_append (by rw [hbranches.normals]; omega)]
  · rw [items_text t (by decide) (by decide), List.map_append, hfaces, hfaces', hbase,
      Mesh.triangles_append hbranches hleaves (by omega), List.map_append, List.map_map]
    rfl

/-- **An object file is the merged mesh.** If the branches and the leaf mesh fit together and all vertices can be
numbered, the file holds the branches with the baked leaves behind them, under the names of those that have vertices;
the others write nothing. Its numbers stand for the singles of the mesh. -/
theorem text_merged (t : Tree) (hbranches : t.branches.hasValidShape = true)
    (hleaf : ∀ shape ∈ t.leaf, shape.hasValidShape = true)
    (hcount : (t.branches ++ t.bakedLeaves).vertexCount < 4294967296) :
    Holds (rows (text t)) (t.branches ++ t.bakedLeaves) ∧
      items "o" (rows (text t)) = (if t.branches.vertexCount = 0 then [] else [["branches"]]) ++
        (if t.bakedLeaves.vertexCount = 0 then [] else [["leaves"]]) ∧
      (t.branches.vertexCount = 0 → group "branches" t.branches 0 = []) ∧
      (t.bakedLeaves.vertexCount = 0 → group "leaves" t.bakedLeaves (UInt32.ofNat t.branches.vertexCount) = []) ∧
      ∀ x : Float32, DecimalStyle.Denotes (numberText x) x.binary := by
  have hfits := Mesh.hasValidShape_iff.mp hbranches
  obtain ⟨baked, hleaves, htotal⟩ := Tree.fits_bakedLeaves hleaf hfits hcount
  have hbaked := hleaves.vertexCount
  refine ⟨holds_rows hfits hleaves htotal, ?_, fun h => ?_, fun h => ?_, denotes_numberText⟩
  · rw [items_text t (by decide) (by decide), (items_groupRows hfits _ _).2.2, (items_groupRows hleaves _ _).2.2, hbaked]
  · exact if_pos (hfits.isEmpty_iff.mpr h)
  · exact if_pos (hleaves.isEmpty_iff.mpr (hbaked.symm.trans h))

end File

/-- A tree of one triangle with two leaves; the transform of a third leaf is cut off. -/
def sprig : Tree :=
  let blade : Mesh := ⟨Array.replicate 9 1, Array.replicate 9 0, Array.replicate 6 1, #[0, 2, 1]⟩
  ⟨blade, some blade, ⟨Array.replicate 40 1, #[], 3⟩, ⟨4, 1, 3, 5, 2⟩⟩

/-- Nine vertices in two groups; the last face of the file has the last three of them. -/
theorem text_merged_sprig : (sprig.branches ++ sprig.bakedLeaves).vertexCount = 9 ∧
    (items "f" (rows (text sprig))).map readFace = [some (0, 2, 1), some (3, 5, 4), some (6, 8, 7)] ∧
    items "o" (rows (text sprig)) = [["branches"], ["leaves"]] := by
  have hcount : (sprig.branches ++ sprig.bakedLeaves).vertexCount = 9 := by decide +kernel
  have hbranches : sprig.branches.hasValidShape = true := by decide +kernel
  have hleaf : ∀ shape ∈ sprig.leaf, shape.hasValidShape = true := by
    rintro shape ⟨⟩
    exact hbranches
  have htriangles : (sprig.branches ++ sprig.bakedLeaves).triangles = [(0, 2, 1), (3, 5, 4), (6, 8, 7)] := by
    decide +kernel
  have hsome : sprig.branches.vertexCount ≠ 0 ∧ sprig.bakedLeaves.vertexCount ≠ 0 := by decide +kernel
  obtain ⟨hholds, hnames, -⟩ := text_merged sprig hbranches hleaf (by rw [hcount]; decide)
  refine ⟨hcount, ?_, ?_⟩
  · rw [hholds.faces, htriangles]
    rfl
  · rw [hnames, if_neg hsome.1, if_neg hsome.2]
    rfl

end Obj
end Arbor
