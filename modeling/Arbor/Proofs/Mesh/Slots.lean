import Arbor.Proofs.Mesh.Edge

/-!
# The vertices that triangles use

Triangles that are worked out with whole numbers use the vertices below some number and no others (`Mesh.Uses`); one
mesh behind another uses those of both (`Uses.append`). The indices of a mesh are 32-bit words, so a mesh that has such
triangles can have no more than `2 ^ 32` vertices (`Uses.le_of_triangles`).
-/

namespace Arbor
namespace Mesh

/-- The triangles counted on from vertex `a`. -/
def countOn (a : Nat) (ts : List (Nat × Nat × Nat)) : List (Nat × Nat × Nat) :=
  ts.map fun t => (t.1 + a, t.2.1 + a, t.2.2 + a)

/-- The triangles use the vertices below `count` and no others. -/
def Uses (ts : List (Nat × Nat × Nat)) (count : Nat) : Prop := ∀ x, (∃ t ∈ ts, x ∈ threeItems t) ↔ x < count

theorem exists_mem_countOn {a x : Nat} {ts : List (Nat × Nat × Nat)} :
    (∃ t ∈ countOn a ts, x ∈ threeItems t) ↔ a ≤ x ∧ ∃ t ∈ ts, x - a ∈ threeItems t := by
  have hitem : ∀ t : Nat × Nat × Nat,
      x ∈ threeItems (t.1 + a, t.2.1 + a, t.2.2 + a) ↔ a ≤ x ∧ x - a ∈ threeItems t := by
    intro t
    simp only [threeItems, List.mem_cons, List.not_mem_nil, or_false]
    omega
  constructor
  · rintro ⟨_, hmem, hx⟩
    obtain ⟨t, ht, rfl⟩ := List.mem_map.mp hmem
    exact ⟨((hitem t).mp hx).1, t, ht, ((hitem t).mp hx).2⟩
  · rintro ⟨hle, t, ht, hx⟩
    exact ⟨_, List.mem_map_of_mem ht, (hitem t).mpr ⟨hle, hx⟩⟩

theorem uses_nil : Uses [] 0 := fun x => iff_of_false (fun ⟨_, ht, _⟩ => nomatch ht) (Nat.not_lt_zero x)

/-- **One behind the other,** triangles use the vertices of both. -/
theorem Uses.append {ts us : List (Nat × Nat × Nat)} {a b : Nat} (hts : Uses ts a) (hus : Uses us b) :
    Uses (ts ++ countOn a us) (a + b) := by
  intro x
  have hsplit : (∃ t ∈ ts ++ countOn a us, x ∈ threeItems t) ↔
      (∃ t ∈ ts, x ∈ threeItems t) ∨ ∃ t ∈ countOn a us, x ∈ threeItems t := by
    simp only [List.mem_append, or_and_right, exists_or]
  rw [hsplit, hts x, exists_mem_countOn, hus (x - a)]
  omega

theorem triangles_empty : empty.triangles = [] := triangles_eq empty

/-- The corners of a mesh are words. -/
theorem lt_of_mem_triangles {m : Mesh} {t : Nat × Nat × Nat} (ht : t ∈ m.triangles) {x : Nat} (hx : x ∈ threeItems t) :
    x < 4294967296 := by
  obtain ⟨words, -, rfl⟩ := List.mem_map.mp ht
  have hlt : ∀ y ∈ threeItems words, y.toNat < 4294967296 := fun y _ => y.toNat_lt
  simp only [threeItems, List.forall_mem_cons] at hlt
  simp only [threeItems, List.mem_cons, List.not_mem_nil, or_false] at hx
  omega

/-- **A mesh cannot have triangles that use more vertices than words can number.** -/
theorem Uses.le_of_triangles {ts : List (Nat × Nat × Nat)} {count : Nat} (h : Uses ts count) {m : Mesh}
    (hm : m.triangles = ts) : count ≤ 4294967296 := by
  rcases Nat.eq_zero_or_pos count with rfl | hpos
  · exact Nat.zero_le _
  · obtain ⟨t, ht, hx⟩ := (h (count - 1)).mpr (Nat.sub_lt hpos Nat.one_pos)
    have := lt_of_mem_triangles (hm ▸ ht) hx
    omega

end Mesh
end Arbor
