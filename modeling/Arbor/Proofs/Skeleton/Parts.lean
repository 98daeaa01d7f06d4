import Arbor.Proofs.Skeleton.Annotation

/-!
# Parts of skeletons and other ids

`s ++ t` has the parts of `t` behind those of `s`, and `Skeleton.between` cuts out again what lies between two sizes
(`between_append`). `Skeleton.renumber` carries all ids along by a function and `Skeleton.unmarked` takes the marks off;
both go through every part, and marking is undone by taking the marks off (`unmarked_annotate`).
-/

namespace Arbor

variable {α : Type}

/-- The node with its ids carried along by a function. -/
def Node.renumber (f : Nat → Nat) (n : Node α) : Node α := { n with id := f n.id, parent := n.parent.map f }

/-- The node without its marks. -/
def Node.unmarked (n : Node α) : Node α := { n with isTerminal := false, isBranchPoint := false }

/-- The segment with its ids carried along by a function. -/
def Segment.renumber (f : Nat → Nat) (seg : Segment α) : Segment α :=
  { seg with start := f seg.start, finish := f seg.finish }

attribute [ext] Skeleton

namespace Skeleton

/-- Nodes, segments and leaves of the one, and behind them those of the other. -/
instance : Append (Skeleton α) := ⟨fun s t => ⟨s.nodes ++ t.nodes, s.segments ++ t.segments, s.leaves ++ t.leaves⟩⟩

/-- Nothing at all. -/
def empty : Skeleton α := ⟨#[], #[], #[]⟩

/-- What lies behind the size of `low` and within the size of `high`. -/
def between (s low high : Skeleton α) : Skeleton α where
  nodes := s.nodes.extract low.nodes.size high.nodes.size
  segments := s.segments.extract low.segments.size high.segments.size
  leaves := s.leaves.extract low.leaves.size high.leaves.size

/-- The skeleton with its ids carried along by a function. -/
def renumber (f : Nat → Nat) (s : Skeleton α) : Skeleton α :=
  { s with nodes := s.nodes.map (Node.renumber f), segments := s.segments.map (Segment.renumber f) }

/-- The skeleton without its marks. -/
def unmarked (s : Skeleton α) : Skeleton α := { s with nodes := s.nodes.map Node.unmarked }

/-! ## Parts -/

@[simp] theorem nodes_append (s t : Skeleton α) : (s ++ t).nodes = s.nodes ++ t.nodes := rfl

@[simp] theorem segments_append (s t : Skeleton α) : (s ++ t).segments = s.segments ++ t.segments := rfl

@[simp] theorem leaves_append (s t : Skeleton α) : (s ++ t).leaves = s.leaves ++ t.leaves := rfl

@[simp] theorem append_empty (s : Skeleton α) : s ++ empty = s := by
  ext1 <;> simp [empty]

theorem append_assoc (s t u : Skeleton α) : s ++ t ++ u = s ++ (t ++ u) := by
  ext1 <;> simp

/-- Cutting finds a part again. -/
theorem between_append (s t u : Skeleton α) : (s ++ t ++ u).between s (s ++ t) = t := by
  ext1 <;> simp [between, Array.extract_append]

/-- Cutting finds the last part again. -/
theorem between_append_last (s t : Skeleton α) : (s ++ t).between s (s ++ t) = t := by
  ext1 <;> simp [between, Array.extract_append]

/-! ## Other ids -/

@[simp] theorem renumber_empty (f : Nat → Nat) : (empty : Skeleton α).renumber f = empty := by
  ext1 <;> simp [renumber, empty]

theorem renumber_append (f : Nat → Nat) (s t : Skeleton α) : (s ++ t).renumber f = s.renumber f ++ t.renumber f := by
  ext1 <;> simp [renumber]

theorem node?_renumber (f : Nat → Nat) (s : Skeleton α) (i : Nat) :
    (s.renumber f).node? i = (s.node? i).map (Node.renumber f) := Array.getElem?_map

/-- Ids that are fixed leave a skeleton as it is. -/
theorem renumber_eq_self {f : Nat → Nat} {s : Skeleton α}
    (hnodes : ∀ n ∈ s.nodes, f n.id = n.id ∧ ∀ p ∈ n.parent, f p = p)
    (hsegments : ∀ seg ∈ s.segments, f seg.start = seg.start ∧ f seg.finish = seg.finish) : s.renumber f = s := by
  have hn : s.nodes.map (Node.renumber f) = s.nodes := by
    refine Array.map_congr_left ?_ |>.trans (Array.map_id s.nodes)
    intro n hmem
    obtain ⟨hid, hparent⟩ := hnodes n hmem
    have hp : n.parent.map f = n.parent := by
      cases hc : n.parent with
      | none => rfl
      | some p => rw [Option.map_some, hparent p hc]
    simp only [Node.renumber, hid, hp, id]
  have hs : s.segments.map (Segment.renumber f) = s.segments := by
    refine Array.map_congr_left ?_ |>.trans (Array.map_id s.segments)
    intro seg hmem
    obtain ⟨hstart, hfinish⟩ := hsegments seg hmem
    simp only [Segment.renumber, hstart, hfinish, id]
  rw [renumber, hn, hs]

/-! ## Marks -/

/-- Marking is undone by taking the marks off. -/
theorem unmarked_annotate (s : Skeleton α) : s.annotate.unmarked = s.unmarked := by
  have hnodes : s.annotate.nodes.map Node.unmarked = s.nodes.map Node.unmarked := by
    refine Array.ext_getElem? fun i => ?_
    have hi := node?_annotate s i
    unfold node? at hi
    rw [Array.getElem?_map, Array.getElem?_map, hi, Option.map_map]
    rfl
  rw [unmarked, unmarked, hnodes]
  rfl

theorem unmarked_between (s low high : Skeleton α) : (s.between low high).unmarked = s.unmarked.between low high := by
  ext1 <;> simp [unmarked, between, Array.map_extract]

theorem unmarked_renumber (f : Nat → Nat) (s : Skeleton α) : (s.renumber f).unmarked = s.unmarked.renumber f := by
  ext1
  · simp only [unmarked, renumber, Array.map_map]
    rfl
  · rfl
  · rfl

end Skeleton
end Arbor
