import Arbor.Proofs.Skeleton.Parts
import Arbor.Proofs.Walk.Topology
import Mathlib.Algebra.BigOperators.Group.Finset.Basic
import Mathlib.Algebra.GroupWithZero.Nat

/-!
# Ends and forks of a tree

A mark tells how many segments start at a place (`node?_annotate_iff`), so the marks of a skeleton are those of any
other with the same nodes and the same segments in another order (`nodes_annotate_eq`).

In a tree in order, segment `k` links node `k + 1` to its parent (`Arena.links`). Hence the segments that start at a
node lead to the nodes that name it as their parent (`Arena.children_eq`), and the numbers of children of all nodes add
up to the number of segments, one less than that of nodes (`Arena.sum_degrees`). What a fork has in excess of one child
is made up for by the nodes without any (`countP_zero_add_sum`), so the tree has one end more than the excess of all its
forks (`Arena.terminalCount_annotate`).
-/

namespace Arbor
namespace Skeleton

variable {α : Type}

/-! ## Marks -/

theorem length_children (s : Skeleton α) (i : Nat) :
    (s.children i).length = s.segments.countP (·.start == i) := by
  rw [children, List.length_map, ← List.countP_eq_length_filter, Array.countP_toList]

/-- What the marks of a place say about the segments. -/
theorem node?_annotate_iff {s : Skeleton α} {i : Nat} {n : Node α} (h : s.annotate.node? i = some n) :
    (n.isTerminal = true ↔ ∀ seg ∈ s.segments, seg.start ≠ i) ∧
    (n.isBranchPoint = true ↔ 1 < s.segments.countP (·.start == i)) := by
  rw [node?_annotate, Option.map_eq_some_iff] at h
  obtain ⟨m, -, rfl⟩ := h
  refine ⟨?_, ?_⟩
  · show ((s.children i).length == 0) = true ↔ _
    rw [length_children, beq_iff_eq, Array.countP_eq_zero]
    simp only [beq_iff_eq, ne_eq]
  · show decide (1 < (s.children i).length) = true ↔ _
    rw [length_children, decide_eq_true_iff]

/-- **Earlier marks and the order of the segments do not matter.** -/
theorem nodes_annotate_eq {s t : Skeleton α} (hnodes : t.unmarked.nodes = s.unmarked.nodes)
    (hsegments : t.segments.toList.Perm s.segments.toList) : t.annotate.nodes = s.annotate.nodes := by
  have hchildren : ∀ i, (t.children i).length = (s.children i).length := by
    intro i
    rw [children, children, List.length_map, List.length_map, (hsegments.filter _).length_eq]
  have hmarked : ∀ (u : Skeleton α) (i : Nat), u.annotate.node? i = (u.unmarked.node? i).map (u.marked i) := by
    intro u i
    rw [node?_annotate, node?, node?, unmarked, Array.getElem?_map, Option.map_map]
    rfl
  have hsame : ∀ i n, t.marked i n = s.marked i n := by
    intro i n
    rw [marked, marked, hchildren]
  refine Array.ext_getElem? fun i => ?_
  show t.annotate.node? i = s.annotate.node? i
  rw [hmarked, hmarked, node?, node?, hnodes, funext (hsame i)]

/-! ## Children -/

/-- The number of children of each node. -/
def degrees (s : Skeleton α) : List Nat := s.nodes.toList.map fun n => (s.children n.id).length

section Arena

variable [Scalar α] {gait : Gait α} {s : Skeleton α}

/-- The nodes are listed in the order of their ids. -/
theorem Arena.ids (hs : s.Arena gait) : s.nodes.toList.map Node.id = List.range s.nodes.size := by
  refine List.ext_getElem (by simp) fun i hi _ => ?_
  rw [List.length_map, Array.length_toList] at hi
  rw [List.getElem_map, List.getElem_range]
  exact hs.id_eq i _ (Array.getElem?_eq_getElem hi)

/-- Each node but the root comes with the segment that leads to it. -/
theorem Arena.links (hs : s.Arena gait) :
    s.nodes.toList.tail.map (fun n => (n.parent, n.id)) =
      s.segments.toList.map fun seg => (some seg.start, seg.finish) := by
  refine List.ext_getElem? fun k => ?_
  rw [List.getElem?_map, List.getElem?_map, List.getElem?_tail, Array.getElem?_toList, Array.getElem?_toList]
  cases hseg : s.segments[k]? with
  | none =>
    have hsize := hs.size
    have hlast := Array.getElem?_eq_none_iff.mp hseg
    rw [Array.getElem?_eq_none (by omega)]
    rfl
  | some seg =>
    obtain ⟨-, n, -, hn, hfinish, hparent, -⟩ := hs.segment k seg hseg
    have hid := hs.id_eq (k + 1) n hn
    rw [show s.nodes[k + 1]? = some n from hn, Option.map_some, Option.map_some, hparent, hid, hfinish]

/-- The first node has no parent. -/
theorem Arena.nodes_eq_cons (hs : s.Arena gait) :
    ∃ root rest, s.nodes.toList = root :: rest ∧ root.parent = none := by
  obtain ⟨root, hroot, hparent, -⟩ := hs.root
  rw [node?, ← Array.getElem?_toList] at hroot
  cases hnodes : s.nodes.toList with
  | nil =>
    rw [hnodes] at hroot
    cases hroot
  | cons n rest =>
    rw [hnodes] at hroot
    obtain rfl : n = root := Option.some.inj hroot
    exact ⟨n, rest, rfl, hparent⟩

/-- **The children of a node are the nodes that name it as their parent.** -/
theorem Arena.children_eq (hs : s.Arena gait) (i : Nat) :
    s.children i = (s.nodes.toList.filter (·.parent == some i)).map Node.id := by
  obtain ⟨root, rest, hnodes, hparent⟩ := hs.nodes_eq_cons
  have hlinks := hs.links
  rw [hnodes, List.tail_cons] at hlinks
  calc s.children i
      = ((s.segments.toList.map fun seg => (some seg.start, seg.finish)).filter (·.1 == some i)).map Prod.snd := by
        rw [List.filter_map, List.map_map]
        rfl
    _ = ((rest.map fun n => (n.parent, n.id)).filter (·.1 == some i)).map Prod.snd := by rw [hlinks]
    _ = (rest.filter (·.parent == some i)).map Node.id := by
        rw [List.filter_map, List.map_map]
        rfl
    _ = (s.nodes.toList.filter (·.parent == some i)).map Node.id := by
        rw [hnodes, List.filter_cons_of_neg]
        rw [hparent]
        exact Bool.false_ne_true

theorem Arena.pairwise_children (hs : s.Arena gait) (i : Nat) : (s.children i).Pairwise (· < ·) := by
  have hids : (s.nodes.toList.map Node.id).Pairwise (· < ·) := by
    rw [hs.ids]
    exact List.pairwise_lt_range
  rw [hs.children_eq]
  exact hids.sublist (List.filter_sublist.map Node.id)

/-! ## Counting -/

/-- Segments start at nodes that there are. -/
theorem Arena.start_lt (hs : s.Arena gait) {seg : Segment α} (hseg : seg ∈ s.segments.toList) :
    seg.start < s.nodes.size := by
  obtain ⟨k, hk⟩ := List.mem_iff_getElem?.mp hseg
  rw [Array.getElem?_toList] at hk
  obtain ⟨m, -, hm, -⟩ := hs.segment k seg hk
  exact lt_of_node? hm

/-- **Every segment is counted at one node.** -/
theorem Arena.sum_degrees (hs : s.Arena gait) : s.degrees.sum = s.segments.size := by
  let starts : Multiset Nat := s.segments.toList.map Segment.start
  have hcount : ∀ i, (s.children i).length = starts.count i := by
    intro i
    rw [Multiset.coe_count, List.count, List.countP_map, length_children, ← Array.countP_toList]
    rfl
  have hrange : ∀ i ∈ starts, i ∈ Finset.range s.nodes.size := by
    intro i hi
    obtain ⟨seg, hseg, rfl⟩ := List.mem_map.mp (Multiset.mem_coe.mp hi)
    exact Finset.mem_range.mpr (hs.start_lt hseg)
  calc s.degrees.sum
      = ((List.range s.nodes.size).map fun i => (s.children i).length).sum := by
        rw [← hs.ids, List.map_map]
        rfl
    _ = ∑ i ∈ Finset.range s.nodes.size, (s.children i).length := rfl
    _ = ∑ i ∈ Finset.range s.nodes.size, starts.count i := Finset.sum_congr rfl fun i _ => hcount i
    _ = starts.card := Multiset.sum_count_eq_card hrange
    _ = s.segments.size := by rw [Multiset.coe_card, List.length_map, Array.length_toList]

/-- With the zeros counted in, numbers add up to one each and what they have in excess of one. -/
theorem countP_zero_add_sum (ks : List Nat) :
    ks.countP (· == 0) + ks.sum = ks.length + ((ks.filter (1 < ·)).map (· - 1)).sum := by
  induction ks with
  | nil => rfl
  | cons k ks ih =>
    rcases Nat.lt_trichotomy k 1 with hk | rfl | hk
    · obtain rfl : k = 0 := Nat.lt_one_iff.mp hk
      rw [List.countP_cons_of_pos rfl, List.sum_cons, List.length_cons, List.filter_cons_of_neg (by simp)]
      omega
    · rw [List.countP_cons_of_neg (by simp), List.sum_cons, List.length_cons, List.filter_cons_of_neg (by simp)]
      omega
    · rw [List.countP_cons_of_neg (by simp; omega), List.sum_cons, List.length_cons,
        List.filter_cons_of_pos (by simpa using hk), List.map_cons, List.sum_cons]
      omega

/-- The nodes of a marked tree know their own number of children. -/
theorem Arena.marks (hs : s.Arena gait) {n : Node α} (hn : n ∈ s.annotate.nodes.toList) :
    n.isTerminal = ((s.children n.id).length == 0) ∧ n.isBranchPoint = decide (1 < (s.children n.id).length) := by
  obtain ⟨i, hi⟩ := List.mem_iff_getElem?.mp hn
  rw [Array.getElem?_toList] at hi
  have hid : n.id = i := hs.annotate.id_eq i n hi
  obtain ⟨m, -, rfl⟩ : ∃ m, s.node? i = some m ∧ s.marked i m = n := Option.map_eq_some_iff.mp (s.node?_annotate i ▸ hi)
  rw [hid]
  exact ⟨rfl, rfl⟩

/-- **A tree has one end more than its forks have children in excess of one.** -/
theorem Arena.terminalCount_annotate (hs : s.Arena gait) :
    s.annotate.terminalCount =
      1 + ((s.annotate.nodes.toList.filter (·.isBranchPoint)).map fun n => (s.children n.id).length - 1).sum := by
  have hends : s.annotate.terminalCount = s.annotate.degrees.countP (· == 0) := by
    rw [degrees, List.countP_map, terminalCount, ← Array.countP_toList]
    refine List.countP_congr fun n hn => ?_
    rw [(hs.marks hn).1]
    rfl
  have hforks : (s.annotate.nodes.toList.filter (·.isBranchPoint)).map (fun n => (s.children n.id).length - 1) =
      (s.annotate.degrees.filter (1 < ·)).map (· - 1) := by
    rw [degrees, List.filter_map, List.map_map, List.filter_congr fun n hn => (hs.marks hn).2]
    rfl
  have hlength : s.annotate.degrees.length = s.annotate.degrees.sum + 1 := by
    rw [hs.annotate.sum_degrees, ← hs.annotate.size, degrees, List.length_map, Array.length_toList]
  have hsum := countP_zero_add_sum s.annotate.degrees
  rw [hends, hforks]
  omega

/-- Each fork has at least one child in excess, so there are more ends than forks. -/
theorem Arena.branchPointCount_lt_annotate (hs : s.Arena gait) :
    s.annotate.branchPointCount < s.annotate.terminalCount := by
  have hexcess : ∀ k ∈ (s.annotate.nodes.toList.filter (·.isBranchPoint)).map fun n => (s.children n.id).length - 1,
      1 ≤ k := by
    intro k hk
    obtain ⟨n, hn, rfl⟩ := List.mem_map.mp hk
    obtain ⟨hmem, hfork⟩ := List.mem_filter.mp hn
    rw [(hs.marks hmem).2, decide_eq_true_iff] at hfork
    omega
  have hle := List.length_le_sum_of_one_le _ hexcess
  rw [List.length_map, ← List.countP_eq_length_filter, Array.countP_toList] at hle
  rw [hs.terminalCount_annotate, branchPointCount]
  omega

end Arena

/-- **The marks count the branches.** Annotation marks a place as an end if no segment starts there and as a fork if
more than one does; it changes nothing else, and neither earlier marks nor the order of the segments matter. In the tree
of a walk the segments that start at a node lead to the nodes that name it as their parent, in the order of their ids.
The tree has one end more than the children that its forks have in excess of one, hence more ends than forks. -/
theorem forks_counted [Scalar α] :
    (∀ s : Skeleton α, s.annotate.unmarked = s.unmarked ∧
      (∀ i n, s.annotate.node? i = some n →
        (n.isTerminal = true ↔ ∀ seg ∈ s.segments, seg.start ≠ i) ∧
        (n.isBranchPoint = true ↔ 1 < s.segments.countP (·.start == i))) ∧
      ∀ t : Skeleton α, t.unmarked.nodes = s.unmarked.nodes → t.segments.toList.Perm s.segments.toList →
        t.annotate.nodes = s.annotate.nodes) ∧
    ∀ (gait : Gait α) (sentence : List (Symbol α)),
      let s := ofSentence gait sentence
      (∀ i, s.children i = (s.nodes.toList.filter (·.parent == some i)).map Node.id ∧
        (s.children i).Pairwise (· < ·)) ∧
      s.terminalCount =
        1 + ((s.nodes.toList.filter (·.isBranchPoint)).map fun n => (s.children n.id).length - 1).sum ∧
      s.branchPointCount + 1 ≤ s.terminalCount := by
  constructor
  · intro s
    exact ⟨unmarked_annotate s, fun _ _ => node?_annotate_iff, fun _ => nodes_annotate_eq⟩
  · intro gait sentence s
    have harena : s.Arena gait := arena_ofSentence gait sentence
    have hwalk := (Turtle.sound_walk gait sentence).arena
    rw [Turtle.gait_walk] at hwalk
    exact ⟨fun i => ⟨harena.children_eq i, harena.pairwise_children i⟩, hwalk.terminalCount_annotate,
      hwalk.branchPointCount_lt_annotate⟩

/-- A trunk with two branches, all marks wrong, and a segment that starts at no node. -/
def windfall : Skeleton Float :=
  let node (id : Nat) (parent : Option Nat) : Node Float := ⟨id, .zero, .identity, 1, parent, 0, true, true⟩
  let segment (start finish : Nat) : Segment Float := ⟨start, finish, 1, 1, 1⟩
  { nodes := #[node 0 none, node 1 (some 0), node 2 (some 1), node 3 (some 1)]
    segments := #[segment 0 1, segment 7 0, segment 1 2, segment 1 3]
    leaves := #[] }

/-- The windfall is marked as it would be from clean nodes and the reversed list; its node 1 is a fork and no end. A
fork with three children leaves three ends. -/
theorem forks_counted_windfall :
    let t : Skeleton Float := { windfall.unmarked with segments := windfall.segments.reverse }
    let tree := ofSentence Gait.standard ("F[+F][-F]F".toList.map Symbol.bare)
    t.annotate.nodes = windfall.annotate.nodes ∧
      (∃ n, windfall.annotate.node? 1 = some n ∧ n.isBranchPoint = true ∧ n.isTerminal = false) ∧
      tree.children 1 = [2, 3, 4] ∧ tree.terminalCount = 3 := by
  intro t tree
  obtain ⟨hmarks, htrees⟩ := forks_counted (α := Float)
  obtain ⟨-, hmark, hsame⟩ := hmarks windfall
  obtain ⟨hchildren, hends, -⟩ := htrees Gait.standard ("F[+F][-F]F".toList.map Symbol.bare)
  have hnodes : t.unmarked.nodes = windfall.unmarked.nodes := by decide +kernel
  have hsegments : t.segments.toList.Perm windfall.segments.toList := by
    rw [Array.toList_reverse]
    exact List.reverse_perm _
  have hfork : ∃ n, windfall.annotate.node? 1 = some n ∧ n.isBranchPoint = true ∧ n.isTerminal = false := by
    obtain ⟨n, hn⟩ : ∃ n, windfall.annotate.node? 1 = some n := node?_of_lt (by decide +kernel)
    obtain ⟨hend, hfork⟩ := hmark 1 n hn
    refine ⟨n, hn, hfork.mpr (by decide +kernel), Bool.eq_false_iff.mpr fun h => ?_⟩
    exact hend.mp h ⟨1, 2, 1, 1, 1⟩ (by simp [windfall]) rfl
  exact ⟨hsame t hnodes hsegments, hfork, (hchildren 1).1.trans (by decide +kernel), hends.trans (by decide +kernel)⟩

end Skeleton
end Arbor
