import Arbor.Skeleton

/-!
# What the marks say

The counting array holds for each node the number of its children (`outgoing_getElem?`), so annotation marks a node as
an end if it has no child and as a fork if it has more than one, and changes nothing else (`node?_annotate`).
-/

namespace Arbor
namespace Skeleton

variable {α : Type} (s : Skeleton α)

/-- A pass that counts starts adds, at each place, the number of segments that start there. -/
theorem foldl_modify_getElem? (i : Nat) : ∀ (segs : List (Segment α)) (counts : Array Nat),
    (segs.foldl (fun counts seg => counts.modify seg.start (· + 1)) counts)[i]? =
      counts[i]?.map (· + (segs.filter (·.start == i)).length)
  | [], counts => by simp
  | seg :: segs, counts => by
    rw [List.foldl_cons, foldl_modify_getElem? i segs, Array.getElem?_modify]
    by_cases h : seg.start = i
    · simp only [h, if_true, beq_self_eq_true, List.filter_cons_of_pos, List.length_cons, Option.map_map]
      congr 1
      funext n
      simp only [Function.comp_apply]
      omega
    · have hb : (seg.start == i) = false := by simpa using h
      simp only [h, if_false, hb, Bool.false_eq_true, not_false_eq_true, List.filter_cons_of_neg]

/-- The counting array has one number for each node: the number of its children. -/
theorem outgoing_getElem? (i : Nat) :
    s.outgoing[i]? = if i < s.nodes.size then some (s.children i).length else none := by
  unfold outgoing children
  rw [← Array.foldl_toList, foldl_modify_getElem?, Array.getElem?_replicate, List.length_map]
  split <;> simp

/-- A node with the marks of place `i`. -/
def marked (i : Nat) (n : Node α) : Node α :=
  { n with isTerminal := (s.children i).length == 0, isBranchPoint := decide (1 < (s.children i).length) }

/-- Annotation marks the ends and the forks, and changes nothing else of a node. -/
theorem node?_annotate (i : Nat) : s.annotate.node? i = (s.node? i).map (s.marked i) := by
  unfold node? annotate
  rw [Array.getElem?_zipWith, outgoing_getElem?]
  by_cases h : i < s.nodes.size
  · simp [h, marked]
  · simp [h]

variable {s} in
theorem node?_annotate_some {i : Nat} {n : Node α} (h : s.node? i = some n) :
    s.annotate.node? i = some (s.marked i n) := by
  rw [node?_annotate, h, Option.map_some]

@[simp] theorem segments_annotate : s.annotate.segments = s.segments := rfl

@[simp] theorem leaves_annotate : s.annotate.leaves = s.leaves := rfl

/-- Annotation keeps the number of nodes. -/
@[simp] theorem size_nodes_annotate : s.annotate.nodes.size = s.nodes.size := by
  have hsize : s.nodes.size ≤ s.outgoing.size := by
    rcases Nat.lt_or_ge s.outgoing.size s.nodes.size with h | h
    · have hnone := outgoing_getElem? s s.outgoing.size
      rw [if_pos h, Array.getElem?_eq_none (Nat.le_refl _)] at hnone
      cases hnone
    · exact h
  simp [annotate, Array.size_zipWith, Nat.min_eq_left hsize]

end Skeleton
end Arbor
