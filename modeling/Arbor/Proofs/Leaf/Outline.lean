import Arbor.Proofs.Leaf.Strip
import Mathlib.Data.List.Dedup
import Mathlib.Data.List.Rotate

/-!
# The edges of a leaf

The vertices of a strip are numbered to and fro, two in a row, so its edges are few in kind (`LeafShape.mem_edges`): up
along the one side of the strip, down along the other, and both ways between any vertex and the next, only that the first
of these edges is not run down and the last not up. The edges that are run both ways lie inside the strip, the others
lead once around it (`LeafShape.mem_stepsAround_iff`). `LeafShape.mesh_strip` says so of the mesh.
-/

namespace Arbor

/-- The steps around a closed list; the last one leads back to its first item. -/
def stepsAround {β : Type} (round : List β) : List (β × β) := round.zip (round.rotate 1)

theorem mem_stepsAround {β : Type} {round : List β} {x y : β} : (x, y) ∈ stepsAround round ↔
    ∃ k < round.length, round[k]? = some x ∧ round[(k + 1) % round.length]? = some y := by
  rw [stepsAround, List.mem_iff_getElem?]
  simp only [List.getElem?_zip_eq_some]
  refine exists_congr fun k => ?_
  constructor
  · rintro ⟨hx, hy⟩
    have hk := (List.getElem?_eq_some_iff.mp hx).1
    exact ⟨hk, hx, by rwa [List.getElem?_rotate hk] at hy⟩
  · rintro ⟨hk, hx, hy⟩
    exact ⟨hx, by rwa [List.getElem?_rotate hk]⟩

theorem nodup_stepsAround {β : Type} {round : List β} (h : round.Nodup) : (stepsAround round).Nodup := by
  have hfirst : (stepsAround round).map Prod.fst = round := List.map_fst_zip (Nat.le_of_eq (List.length_rotate _ _).symm)
  have hnodup : ((stepsAround round).map Prod.fst).Nodup := hfirst.symm ▸ h
  exact hnodup.of_map Prod.fst

namespace LeafShape

open Mesh

/-! ## All edges -/

/-- The directed edges of the two triangles of a quad. -/
def edgesAt (r : Nat) : List (Nat × Nat) :=
  [(2 * r, 2 * r + 1), (2 * r + 1, 2 * r + 2), (2 * r + 2, 2 * r),
    (2 * r + 1, 2 * r + 3), (2 * r + 3, 2 * r + 2), (2 * r + 2, 2 * r + 1)]

theorem edgesOf_faces (rows : Nat) : edgesOf (faces rows) = (List.range rows).flatMap edgesAt := by
  rw [edgesOf, faces, List.flatMap_assoc]
  rfl

theorem length_faces (rows : Nat) : (faces rows).length = 2 * rows := by
  rw [faces, length_flatMap_of_length 2 fun _ _ => rfl, List.length_range, Nat.mul_comm]

/-- **The edges of a strip.** The last two kinds run along its sides. -/
theorem mem_edges {rows x y : Nat} : (x, y) ∈ edgesOf (faces rows) ↔
    (y = x + 1 ∧ y ≤ 2 * rows) ∨ (x = y + 1 ∧ 2 ≤ x ∧ x ≤ 2 * rows + 1) ∨
      (x % 2 = 1 ∧ y = x + 2 ∧ y ≤ 2 * rows + 1) ∨ (x % 2 = 0 ∧ x = y + 2 ∧ x ≤ 2 * rows) := by
  simp only [edgesOf_faces, List.mem_flatMap, List.mem_range, edgesAt, List.mem_cons, List.not_mem_nil, or_false,
    Prod.mk.injEq]
  constructor
  · rintro ⟨r, hr, h⟩
    omega
  · rintro (⟨rfl, hy⟩ | ⟨rfl, hlo, hhi⟩ | ⟨hodd, rfl, hy⟩ | ⟨heven, rfl, hx⟩)
    · exact ⟨x / 2, by omega, by omega⟩
    · exact ⟨(y - 1) / 2, by omega, by omega⟩
    · exact ⟨x / 2, by omega, by omega⟩
    · exact ⟨y / 2, by omega, by omega⟩

/-- **No directed edge occurs twice,** within a quad or in two of them. -/
theorem nodup_edges (rows : Nat) : (edgesOf (faces rows)).Nodup := by
  rw [edgesOf_faces, List.nodup_flatMap]
  refine ⟨fun r _ => ?_, List.nodup_range.imp fun {r r'} hne => List.disjoint_left.mpr fun e he he' => ?_⟩
  · simp only [edgesAt, List.nodup_cons, List.mem_cons, List.not_mem_nil, or_false, Prod.mk.injEq, not_or,
      List.nodup_nil, not_false_eq_true, and_true]
    omega
  · obtain ⟨x, y⟩ := e
    simp only [edgesAt, List.mem_cons, List.not_mem_nil, or_false, Prod.mk.injEq] at he he'
    omega

/-! ## Inside the strip -/

/-- The edges inside a strip: the diagonals of its quads, and the joints between a quad and the next. -/
def innerEdges (rows : Nat) : List (Nat × Nat) :=
  (List.range rows).map (fun r => (2 * r + 1, 2 * r + 2)) ++
    (List.range (rows - 1)).map fun r => (2 * r + 2, 2 * r + 3)

/-- Together they lead from each vertex to the next, from the second to the last but one. -/
theorem mem_innerEdges {rows x y : Nat} : (x, y) ∈ innerEdges rows ↔ y = x + 1 ∧ 1 ≤ x ∧ y ≤ 2 * rows := by
  simp only [innerEdges, List.mem_append, List.mem_map, List.mem_range, Prod.mk.injEq]
  constructor
  · rintro (⟨r, hr, rfl, rfl⟩ | ⟨r, hr, rfl, rfl⟩) <;> omega
  · rintro ⟨rfl, hx, hy⟩
    rcases Nat.mod_two_eq_zero_or_one x with heven | hodd
    · exact Or.inr ⟨x / 2 - 1, by omega, by omega, by omega⟩
    · exact Or.inl ⟨x / 2, by omega, by omega, by omega⟩

/-- **The edges inside are those that are run both ways.** -/
theorem mem_edges_swap {rows x y : Nat} : (x, y) ∈ edgesOf (faces rows) ∧ (y, x) ∈ edgesOf (faces rows) ↔
    (x, y) ∈ innerEdges rows ∨ (y, x) ∈ innerEdges rows := by
  rw [mem_edges, mem_edges, mem_innerEdges, mem_innerEdges]
  omega

/-! ## Around the strip -/

/-- The vertices around a strip: up along its one side, and back along the other. -/
def outline (rows : Nat) : List Nat :=
  (List.range (rows + 1)).map (fun r => 2 * r + 1) ++ (List.range (rows + 1)).map fun r => 2 * (rows - r)

theorem length_outline (rows : Nat) : (outline rows).length = 2 * (rows + 1) := by
  simp only [outline, List.length_append, List.length_map, List.length_range]
  omega

theorem getElem?_outline_up {rows k : Nat} (hk : k ≤ rows) : (outline rows)[k]? = some (2 * k + 1) := by
  unfold outline
  rw [List.getElem?_append_left (by simp; omega), List.getElem?_map, List.getElem?_range (by omega)]
  rfl

theorem getElem?_outline_down {rows k : Nat} (hk : k ≤ rows) : (outline rows)[rows + 1 + k]? = some (2 * (rows - k)) := by
  unfold outline
  rw [List.getElem?_append_right (by simp), List.length_map, List.length_range, Nat.add_sub_cancel_left,
    List.getElem?_map, List.getElem?_range (by omega)]
  rfl

/-- **The way around visits every vertex once.** -/
theorem outline_perm (rows : Nat) : (outline rows).Perm (List.range (2 * (rows + 1))) := by
  have hnodup : (outline rows).Nodup := by
    refine List.nodup_append.mpr ⟨?_, ?_, ?_⟩
    · exact List.nodup_range.map fun r r' (h : 2 * r + 1 = 2 * r' + 1) => by omega
    · refine List.nodup_range.map_on fun r hr r' hr' h => ?_
      have := List.mem_range.mp hr
      have := List.mem_range.mp hr'
      omega
    · intro x hx y hy
      obtain ⟨r, -, rfl⟩ := List.mem_map.mp hx
      obtain ⟨r', -, rfl⟩ := List.mem_map.mp hy
      omega
  refine (List.perm_ext_iff_of_nodup hnodup List.nodup_range).mpr fun x => ?_
  simp only [outline, List.mem_append, List.mem_map, List.mem_range]
  constructor
  · rintro (⟨r, hr, rfl⟩ | ⟨r, hr, rfl⟩) <;> omega
  · intro hx
    rcases Nat.mod_two_eq_zero_or_one x with heven | hodd
    · exact Or.inr ⟨rows - x / 2, by omega, by omega⟩
    · exact Or.inl ⟨x / 2, by omega, by omega⟩

/-- The edges that are run one way only: the first and the last across the strip, and those along its sides. -/
theorem mem_edges_not_swap {rows x y : Nat} (h : 1 ≤ rows) :
    (x, y) ∈ edgesOf (faces rows) ∧ (y, x) ∉ edgesOf (faces rows) ↔
      (x = 0 ∧ y = 1) ∨ (x = 2 * rows + 1 ∧ y = 2 * rows) ∨
        (x % 2 = 1 ∧ y = x + 2 ∧ y ≤ 2 * rows + 1) ∨ (x % 2 = 0 ∧ x = y + 2 ∧ x ≤ 2 * rows) := by
  rw [mem_edges, mem_edges]
  constructor
  · rintro ⟨⟨rfl, hy⟩ | ⟨rfl, hlo, hhi⟩ | hup | hdown, hback⟩
    · exact Or.inl (by omega)
    · exact Or.inr (Or.inl (by omega))
    · exact Or.inr (Or.inr (Or.inl hup))
    · exact Or.inr (Or.inr (Or.inr hdown))
  · rintro (⟨rfl, rfl⟩ | ⟨rfl, rfl⟩ | ⟨hodd, rfl, hy⟩ | ⟨heven, rfl, hx⟩) <;> omega

/-- Step `k` of the way around: up the one side, across at the tip, down the other side, across at the stem. -/
def outlineStep (rows k : Nat) : Nat × Nat :=
  if k < rows then (2 * k + 1, 2 * k + 3)
  else if k = rows then (2 * rows + 1, 2 * rows)
  else if k ≤ 2 * rows then (2 * (2 * rows - k) + 2, 2 * (2 * rows - k))
  else (0, 1)

theorem getElem?_outline {rows k : Nat} (hk : k < 2 * (rows + 1)) :
    (outline rows)[k]? = some (outlineStep rows k).1 ∧
      (outline rows)[(k + 1) % (2 * (rows + 1))]? = some (outlineStep rows k).2 := by
  unfold outlineStep
  rcases Nat.lt_trichotomy k rows with hup | rfl | hdown
  · rw [if_pos hup, Nat.mod_eq_of_lt (by omega), getElem?_outline_up (Nat.le_of_lt hup), getElem?_outline_up hup]
    exact ⟨rfl, rfl⟩
  · rw [if_neg (Nat.lt_irrefl k), if_pos rfl, Nat.mod_eq_of_lt (by omega)]
    exact ⟨getElem?_outline_up (Nat.le_refl k), getElem?_outline_down (Nat.zero_le k)⟩
  · obtain ⟨j, rfl⟩ := Nat.exists_eq_add_of_le (Nat.succ_le_of_lt hdown)
    have hhere := getElem?_outline_down (show j ≤ rows by omega)
    rw [if_neg (by omega), if_neg (by omega), Nat.succ_eq_add_one]
    split
    next hj =>
      have hnext := getElem?_outline_down (show j + 1 ≤ rows by omega)
      rw [Nat.mod_eq_of_lt (by omega)]
      exact ⟨hhere.trans (congrArg some (by omega)), hnext.trans (congrArg some (by omega))⟩
    next hj =>
      obtain rfl : j = rows := by omega
      rw [show j + 1 + j + 1 = 2 * (j + 1) by omega, Nat.mod_self]
      exact ⟨hhere.trans (congrArg some (by omega)), getElem?_outline_up (Nat.zero_le j)⟩

theorem mem_stepsAround_outline {rows : Nat} {e : Nat × Nat} :
    e ∈ stepsAround (outline rows) ↔ ∃ k < 2 * (rows + 1), outlineStep rows k = e := by
  obtain ⟨x, y⟩ := e
  rw [mem_stepsAround, length_outline]
  refine exists_congr fun k => and_congr_right fun hk => ?_
  rw [(getElem?_outline hk).1, (getElem?_outline hk).2, Option.some.injEq, Option.some.injEq, Prod.ext_iff]

/-- **The way around takes the edges that are run one way only.** -/
theorem mem_stepsAround_iff {rows x y : Nat} (h : 1 ≤ rows) : (x, y) ∈ stepsAround (outline rows) ↔
    (x, y) ∈ edgesOf (faces rows) ∧ (y, x) ∉ edgesOf (faces rows) := by
  rw [mem_edges_not_swap h, mem_stepsAround_outline]
  unfold outlineStep
  constructor
  · rintro ⟨k, hk, hstep⟩
    split_ifs at hstep
    all_goals
      rw [Prod.mk.injEq] at hstep
      omega
  · rintro (⟨rfl, rfl⟩ | ⟨rfl, rfl⟩ | ⟨hodd, rfl, hy⟩ | ⟨heven, rfl, hx⟩)
    · refine ⟨2 * rows + 1, by omega, ?_⟩
      rw [if_neg (by omega), if_neg (by omega), if_neg (by omega)]
    · refine ⟨rows, by omega, ?_⟩
      rw [if_neg (Nat.lt_irrefl rows), if_pos rfl]
    · refine ⟨x / 2, by omega, ?_⟩
      rw [if_pos (by omega), Prod.mk.injEq]
      omega
    · refine ⟨2 * rows - y / 2, by omega, ?_⟩
      rw [if_neg (by omega), if_neg (by omega), if_pos (by omega), Prod.mk.injEq]
      omega

/-! ## The mesh of a leaf -/

/-- **A strip of quads,** wound consistently, whose boundary is one closed line. -/
structure Strip (rows : Nat) (m : Mesh) : Prop where
  valid : m.hasValidShape = true
  vertexCount : m.vertexCount = 2 * (rows + 1)
  triangleCount : m.triangleCount = 2 * rows
  /-- The triangles are wound consistently. -/
  nodup : m.edges.Nodup
  /-- The diagonals and joints are run once in each direction, -/
  inner : ∀ e ∈ innerEdges rows, m.edges.count e = 1 ∧ m.edges.count e.swap = 1
  /-- and they are the only edges that are run in both. -/
  paired : ∀ e, e ∈ m.edges ∧ e.swap ∈ m.edges ↔ e ∈ innerEdges rows ∨ e.swap ∈ innerEdges rows
  /-- The edges without a reverse are the steps once around the strip, -/
  boundary : (m.edges.filter fun e => e.swap ∉ m.edges).Perm (stepsAround (outline rows))
  /-- which visit every vertex once. -/
  round : (outline rows).Perm (List.range (2 * (rows + 1)))

theorem strip_of_triangles {rows : Nat} {m : Mesh} (h : 1 ≤ rows) (hfits : m.Fits (2 * (rows + 1)))
    (htriangles : m.triangles = faces rows) : Strip rows m where
  valid := hfits.hasValidShape
  vertexCount := hfits.vertexCount
  triangleCount := by rw [← length_triangles, htriangles, length_faces]
  nodup := by rw [edges, htriangles]; exact nodup_edges rows
  inner e he := by
    obtain ⟨hedge, hback⟩ := mem_edges_swap.mpr (Or.inl he)
    rw [edges, htriangles]
    exact ⟨List.count_eq_one_of_mem (nodup_edges rows) hedge, List.count_eq_one_of_mem (nodup_edges rows) hback⟩
  paired e := by rw [edges, htriangles]; exact mem_edges_swap
  boundary := by
    rw [edges, htriangles]
    refine (List.perm_ext_iff_of_nodup ((nodup_edges rows).filter _) ?_).mpr fun e => ?_
    · exact nodup_stepsAround ((outline_perm rows).nodup_iff.mpr List.nodup_range)
    · rw [List.mem_filter, decide_eq_true_eq]
      exact (mem_stepsAround_iff h).symm
  round := outline_perm rows

/-- **The shape of a leaf is one consistently wound strip.** -/
theorem mesh_strip (s : LeafShape Float) (h : s.rows < 2147483648) : Strip s.rows s.mesh := by
  have hroom : 2 * (s.rows + 1) ≤ 4294967296 := by omega
  exact strip_of_triangles (one_le_rows s) (fits_mesh s hroom) (triangles_mesh s hroom)

/-- A leaf without rows is drawn with one; the way around the standard leaf, which has three. -/
theorem mesh_strip_standard : rows { standard with segments := 0 } = 1 ∧ Strip 1 (mesh { standard with segments := 0 }) ∧
    Strip 3 standard.mesh ∧ outline 3 = [1, 3, 5, 7, 6, 4, 2, 0] :=
  ⟨rfl, mesh_strip { standard with segments := 0 } (by decide), mesh_strip standard (by decide), rfl⟩

end LeafShape
end Arbor
