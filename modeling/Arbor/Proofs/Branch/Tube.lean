import Arbor.Proofs.Mesh.Edge
import Mathlib.Data.List.Nodup

/-!
# One tube

A tube joins two rings of `n` vertices, the first numbered from `a` and the second from `a + n` on, by two triangles at
every place (`Tube.faces`). The places of a ring follow one another and the first follows the last (`Tube.Next`). With
this relation in the place of a remainder all facts about one tube are linear in `a`, `n` and the places:

* the triangles use all vertices of both rings and no others (`mem_faces`);
* no directed edge occurs twice (`nodup_edges`);
* an edge has its reverse unless it runs along one of the two rings (`reverse_mem_edges`, `Along.not_mem_edges`).
-/

namespace Arbor
namespace Tube

/-- The triangles of a tube. -/
def faces (a n : Nat) : List (Nat × Nat × Nat) :=
  (List.range n).flatMap fun i =>
    [(a + i, a + n + i, a + (i + 1) % n), (a + (i + 1) % n, a + n + i, a + n + (i + 1) % n)]

/-- The directed edges of the two triangles between a place and the next one. -/
def edgesAt (a n i j : Nat) : List (Nat × Nat) :=
  [(a + i, a + n + i), (a + n + i, a + j), (a + j, a + i), (a + j, a + n + i), (a + n + i, a + n + j), (a + n + j, a + j)]

/-- Place `j` follows place `i` on a ring of `n` places. -/
structure Next (n i j : Nat) : Prop where
  lt : i < n
  next : (i + 1 < n ∧ j = i + 1) ∨ (i + 1 = n ∧ j = 0)

variable {a n i j : Nat}

theorem next_mod (hi : i < n) : Next n i ((i + 1) % n) := by
  refine ⟨hi, ?_⟩
  rcases Nat.lt_or_eq_of_le (Nat.succ_le_of_lt hi) with h | h
  · exact Or.inl ⟨h, Nat.mod_eq_of_lt h⟩
  · exact Or.inr ⟨h, by rw [← h, Nat.mod_self]⟩

theorem Next.eq_mod (h : Next n i j) : j = (i + 1) % n := by
  obtain ⟨hi, ⟨hlt, rfl⟩ | ⟨rfl, rfl⟩⟩ := h
  · rw [Nat.mod_eq_of_lt hlt]
  · rw [Nat.mod_self]

theorem Next.right_lt (h : Next n i j) : j < n := by
  obtain ⟨hi, hj⟩ := h
  omega

theorem exists_previous (hi : i < n) : ∃ p, Next n p i := by
  rcases Nat.eq_zero_or_pos i with rfl | hpos
  · exact ⟨n - 1, by omega, Or.inr ⟨by omega, rfl⟩⟩
  · exact ⟨i - 1, by omega, Or.inl ⟨by omega, by omega⟩⟩

/-! ## Vertices -/

theorem length_faces (a n : Nat) : (faces a n).length = 2 * n := by
  rw [faces, length_flatMap_of_length 2 fun _ _ => rfl, List.length_range, Nat.mul_comm]

/-- **The triangles of a tube use the vertices of its two rings and no others.** -/
theorem mem_faces {x : Nat} : (∃ t ∈ faces a n, x ∈ threeItems t) ↔ a ≤ x ∧ x < a + 2 * n := by
  constructor
  · rintro ⟨t, ht, hx⟩
    obtain ⟨i, hi, ht⟩ := List.mem_flatMap.mp ht
    have hlt := List.mem_range.mp hi
    have hnext := (next_mod hlt).right_lt
    simp only [List.mem_cons, List.not_mem_nil, or_false] at ht
    rcases ht with rfl | rfl
    all_goals
      simp only [threeItems, List.mem_cons, List.not_mem_nil, or_false] at hx
      omega
  · rintro ⟨hlo, hhi⟩
    have hmem : ∀ i, i < n → (a + i, a + n + i, a + (i + 1) % n) ∈ faces a n := fun i hi =>
      List.mem_flatMap.mpr ⟨i, List.mem_range.mpr hi, List.mem_cons_self⟩
    rcases Nat.lt_or_ge x (a + n) with hx | hx
    · refine ⟨_, hmem (x - a) (by omega), ?_⟩
      simp only [threeItems, List.mem_cons]
      omega
    · refine ⟨_, hmem (x - (a + n)) (by omega), ?_⟩
      simp only [threeItems, List.mem_cons]
      omega

/-! ## Edges -/

theorem edgesOf_faces (a n : Nat) :
    Mesh.edgesOf (faces a n) = (List.range n).flatMap fun i => edgesAt a n i ((i + 1) % n) := by
  rw [Mesh.edgesOf, faces, List.flatMap_assoc]
  rfl

theorem mem_edges {e : Nat × Nat} : e ∈ Mesh.edgesOf (faces a n) ↔ ∃ i j, Next n i j ∧ e ∈ edgesAt a n i j := by
  rw [edgesOf_faces, List.mem_flatMap]
  constructor
  · rintro ⟨i, hi, he⟩
    exact ⟨i, _, next_mod (List.mem_range.mp hi), he⟩
  · rintro ⟨i, j, h, he⟩
    exact ⟨i, List.mem_range.mpr h.lt, h.eq_mod ▸ he⟩

theorem ends_of_mem_edges {x y : Nat} (h : (x, y) ∈ Mesh.edgesOf (faces a n)) :
    (a ≤ x ∧ x < a + 2 * n) ∧ a ≤ y ∧ y < a + 2 * n := by
  obtain ⟨i, j, hnext, hxy⟩ := mem_edges.mp h
  have hi := hnext.lt
  have hj := hnext.right_lt
  simp only [edgesAt, List.mem_cons, List.not_mem_nil, or_false, Prod.mk.injEq] at hxy
  omega

theorem eq_of_mem_edgesAt (hn : 3 ≤ n) {i' j' : Nat} (h : Next n i j) (h' : Next n i' j') {e : Nat × Nat}
    (he : e ∈ edgesAt a n i j) (he' : e ∈ edgesAt a n i' j') : i = i' := by
  obtain ⟨x, y⟩ := e
  obtain ⟨hi, hj⟩ := h
  obtain ⟨hi', hj'⟩ := h'
  simp only [edgesAt, List.mem_cons, List.not_mem_nil, or_false, Prod.mk.injEq] at he he'
  omega

theorem nodup_edgesAt (hn : 3 ≤ n) (h : Next n i j) : (edgesAt a n i j).Nodup := by
  obtain ⟨hi, hj⟩ := h
  simp only [edgesAt, List.nodup_cons, List.mem_cons, List.not_mem_nil, or_false, Prod.mk.injEq, not_or, List.nodup_nil,
    not_false_eq_true, and_true]
  omega

/-- **No directed edge of a tube occurs twice.** -/
theorem nodup_edges (hn : 3 ≤ n) (a : Nat) : (Mesh.edgesOf (faces a n)).Nodup := by
  rw [edgesOf_faces, List.nodup_flatMap]
  refine ⟨fun i hi => nodup_edgesAt hn (next_mod (List.mem_range.mp hi)), ?_⟩
  refine List.nodup_range.imp_of_mem fun {i i'} hi hi' hne => ?_
  refine List.disjoint_left.mpr fun e he he' => ?_
  exact hne (eq_of_mem_edgesAt hn (next_mod (List.mem_range.mp hi)) (next_mod (List.mem_range.mp hi')) he he')

/-- The edges that run along a ring, backwards along the first and forwards along the second. -/
def Along (a n : Nat) (e : Nat × Nat) : Prop :=
  ∃ i j, Next n i j ∧ (e = (a + j, a + i) ∨ e = (a + n + i, a + n + j))

theorem Along.mem_edges {e : Nat × Nat} (h : Along a n e) : e ∈ Mesh.edgesOf (faces a n) := by
  obtain ⟨i, j, hnext, rfl | rfl⟩ := h
  · exact Tube.mem_edges.mpr ⟨i, j, hnext, by simp [edgesAt]⟩
  · exact Tube.mem_edges.mpr ⟨i, j, hnext, by simp [edgesAt]⟩

/-- An edge along a ring has no reverse; a ring of two would have. -/
theorem Along.not_mem_edges (hn : 3 ≤ n) {x y : Nat} (h : Along a n (x, y)) : (y, x) ∉ Mesh.edgesOf (faces a n) := by
  intro hmem
  obtain ⟨i, j, ⟨hi, hj⟩, hxy⟩ := h
  obtain ⟨i', j', ⟨hi', hj'⟩, hyx⟩ := Tube.mem_edges.mp hmem
  simp only [edgesAt, List.mem_cons, List.not_mem_nil, or_false, Prod.mk.injEq] at hxy hyx
  omega

/-- **Every other edge has its reverse,** in the other triangle of the place or at the place before or behind. -/
theorem reverse_mem_edges {x y : Nat} (h : (x, y) ∈ Mesh.edgesOf (faces a n)) (hoff : ¬Along a n (x, y)) :
    (y, x) ∈ Mesh.edgesOf (faces a n) := by
  obtain ⟨i, j, hnext, hxy⟩ := Tube.mem_edges.mp h
  rw [Tube.mem_edges]
  simp only [edgesAt, List.mem_cons, List.not_mem_nil, or_false, Prod.mk.injEq] at hxy
  -- the edge up the tube is met at the place before, the one down at the next, the diagonal in the other triangle
  rcases hxy with ⟨rfl, rfl⟩ | ⟨rfl, rfl⟩ | ⟨rfl, rfl⟩ | ⟨rfl, rfl⟩ | ⟨rfl, rfl⟩ | ⟨rfl, rfl⟩
  · obtain ⟨p, hp⟩ := exists_previous hnext.lt
    exact ⟨p, i, hp, by simp [edgesAt]⟩
  · exact ⟨i, j, hnext, by simp [edgesAt]⟩
  · exact absurd ⟨i, j, hnext, Or.inl rfl⟩ hoff
  · exact ⟨i, j, hnext, by simp [edgesAt]⟩
  · exact absurd ⟨i, j, hnext, Or.inr rfl⟩ hoff
  · exact ⟨j, _, next_mod hnext.right_lt, by simp [edgesAt]⟩

end Tube
end Arbor
