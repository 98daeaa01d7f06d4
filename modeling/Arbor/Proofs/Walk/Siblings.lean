import Arbor.Proofs.Walk.Twig
import Mathlib.Logic.Equiv.Defs

/-!
# Twigs side by side

Twigs that follow one another can change places. The ids change with them (`swapBlocks`), and otherwise the skeleton
stays the same (`siblings_commute`): each part of the sentence adds the same but for the ids wherever it stands
(`Carried.foldl`), so the skeletons of both orders have the same parts with the two middle ones exchanged, and the marks
depend on the number of children alone (`Skeleton.Renumbered.annotate`).
-/

namespace Arbor

/-! ## Blocks that change places -/

/-- The permutation that exchanges the `m` numbers from `k` on with the `n` numbers behind them. -/
def swapBlocks (k m n : Nat) : Equiv.Perm Nat where
  toFun i := if i < k then i else if i < k + m then i + n else if i < k + m + n then i - m else i
  invFun i := if i < k then i else if i < k + n then i + m else if i < k + n + m then i - n else i
  left_inv i := by
    dsimp only
    split_ifs <;> omega
  right_inv i := by
    dsimp only
    split_ifs <;> omega

theorem swapBlocks_apply (k m n i : Nat) : swapBlocks k m n i =
    if i < k then i else if i < k + m then i + n else if i < k + m + n then i - m else i := rfl

section Places

variable {k m n i : Nat}

theorem swapBlocks_below (h : i < k) : swapBlocks k m n i = i := if_pos h

theorem swapBlocks_first (h : i < m) : swapBlocks k m n (k + i) = k + n + i := by
  rw [swapBlocks_apply, if_neg (by omega), if_pos (by omega)]
  omega

theorem swapBlocks_second (h : i < n) : swapBlocks k m n (k + m + i) = k + i := by
  rw [swapBlocks_apply, if_neg (by omega), if_neg (by omega), if_pos (by omega)]
  omega

theorem swapBlocks_behind (h : k + m + n ≤ i) : swapBlocks k m n i = i := by
  rw [swapBlocks_apply, if_neg (by omega), if_neg (by omega), if_neg (by omega)]

end Places

/-- An item is found again where its block has gone. -/
theorem getElem?_swapBlocks {β : Type} (a b c d : Array β) (i : Nat) :
    (a ++ c ++ b ++ d)[swapBlocks a.size b.size c.size i]? = (a ++ b ++ c ++ d)[i]? := by
  simp only [swapBlocks_apply, Array.getElem?_append, Array.size_append]
  grind

/-! ## Skeletons with other ids -/

variable {α : Type}

namespace Skeleton

/-- **The second skeleton is the first with its nodes renumbered,** marks included: each node is found at its new id,
the segment that leads to it is still the one of its number, and the leaves are the same in some order. -/
structure Renumbered (σ : Equiv.Perm Nat) (s t : Skeleton α) : Prop where
  node : ∀ i, t.node? (σ i) = (s.node? i).map (Node.renumber σ)
  segment : ∀ i, t.segments[σ (i + 1) - 1]? = s.segments[i]?.map (Segment.renumber σ)
  segments : t.segments.toList.Perm (s.segments.toList.map (Segment.renumber σ))
  leaves : t.leaves.toList.Perm s.leaves.toList

namespace Renumbered

variable {σ : Equiv.Perm Nat} {s t : Skeleton α}

/-- Renumbered nodes have as many children as before. -/
theorem length_children (h : s.Renumbered σ t) (i : Nat) : (t.children (σ i)).length = (s.children i).length := by
  have hsame : ∀ seg : Segment α, ((seg.renumber σ).start == σ i) = (seg.start == i) := by
    intro seg
    rw [Bool.eq_iff_iff, beq_iff_eq, beq_iff_eq]
    exact σ.injective.eq_iff
  rw [children, children, List.length_map, List.length_map, (h.segments.filter _).length_eq, List.filter_map,
    List.length_map]
  congr 2
  exact funext hsame

/-- **The marks of renumbered nodes are the same.** -/
theorem annotate (h : s.Renumbered σ t) : s.annotate.Renumbered σ t.annotate where
  node i := by
    rw [node?_annotate, node?_annotate, h.node, Option.map_map, Option.map_map]
    congr 1
    funext n
    simp only [Function.comp_apply, marked, Node.renumber, h.length_children]
  segment := h.segment
  segments := h.segments
  leaves := h.leaves

end Renumbered

/-- A skeleton whose middle parts have changed places, with its ids changed accordingly. -/
theorem renumbered_of_parts (s a b u : Skeleton α) (hsize : s.nodes.size = s.segments.size + 1)
    (ha : a.nodes.size = a.segments.size) (hb : b.nodes.size = b.segments.size) :
    (s ++ a ++ b ++ u).Renumbered (swapBlocks s.nodes.size a.nodes.size b.nodes.size)
      ((s ++ b ++ a ++ u).renumber (swapBlocks s.nodes.size a.nodes.size b.nodes.size)) where
  node i := by
    rw [node?_renumber]
    exact congrArg _ (getElem?_swapBlocks s.nodes a.nodes b.nodes u.nodes i)
  segment i := by
    -- the segment to node `i + 1` has number `i`, so its block begins one place earlier
    have hplace : swapBlocks s.nodes.size a.nodes.size b.nodes.size (i + 1) - 1 =
        swapBlocks s.segments.size a.segments.size b.segments.size i := by
      rw [swapBlocks_apply, swapBlocks_apply, hsize, ha, hb]
      split_ifs <;> omega
    rw [hplace, renumber, Array.getElem?_map]
    exact congrArg _ (getElem?_swapBlocks s.segments a.segments b.segments u.segments i)
  segments := by
    simp only [renumber, Array.toList_map, segments_append, Array.toList_append]
    refine List.Perm.map _ (List.Perm.append_right _ ?_)
    rw [List.append_assoc, List.append_assoc]
    exact List.perm_append_comm.append_left _
  leaves := by
    simp only [renumber, leaves_append, Array.toList_append]
    refine List.Perm.append_right _ ?_
    rw [List.append_assoc, List.append_assoc]
    exact List.perm_append_comm.append_left _

end Skeleton

/-! ## Walks over both orders -/

variable [Scalar α]

namespace Turtle

/-- Ids that are not in use can be changed freely. -/
theorem renumber_walk (gait : Gait α) (xs : List (Symbol α)) {f : Nat → Nat}
    (hf : ∀ i < (walk gait xs).skeleton.nodes.size, f i = i) :
    (walk gait xs).skeleton.renumber f = (walk gait xs).skeleton := by
  have harena := (sound_walk gait xs).arena
  refine Skeleton.renumber_eq_self (fun n hn => ?_) (fun seg hseg => ?_)
  · obtain ⟨i, hi, rfl⟩ := Array.mem_iff_getElem.mp hn
    have hget : (walk gait xs).skeleton.node? i = some (walk gait xs).skeleton.nodes[i] := Array.getElem?_eq_getElem hi
    refine ⟨hf _ (by rw [harena.id_eq i _ hget]; exact hi), fun p hp => ?_⟩
    rcases Nat.eq_zero_or_pos i with rfl | hpos
    · obtain ⟨r, hr, hnone, -⟩ := harena.root
      rw [hget] at hr
      rw [Option.some.inj hr, hnone] at hp
      cases hp
    · obtain ⟨q, m, hq, hlt, -, -⟩ := harena.parent i _ hpos hget
      rw [hq] at hp
      cases hp
      exact hf _ (by omega)
  · obtain ⟨k, hk, rfl⟩ := Array.mem_iff_getElem.mp hseg
    obtain ⟨m, n, hm, hn, hfinish, -⟩ := harena.segment k _ (Array.getElem?_eq_getElem hk)
    refine ⟨hf _ (Skeleton.lt_of_node? hm), ?_⟩
    rw [hfinish]
    exact hf _ (Skeleton.lt_of_node? hn)

section Orders

variable (gait : Gait α) (s : List (Symbol α))

/-- The walk has in hand what it has behind `s`. -/
def BackAt (xs : List (Symbol α)) : Prop :=
  (walk gait xs).pose = (walk gait s).pose ∧ (walk gait xs).saved = (walk gait s).saved

variable {gait s}

theorem BackAt.twig {xs : List (Symbol α)} (h : BackAt gait s xs) (w : Twig α) : BackAt gait s (xs ++ w.symbols) :=
  ⟨(walk_twig gait xs w).1.trans h.1, (walk_twig gait xs w).2.trans h.2⟩

/-- From two places with the same in hand, a part of the sentence adds the same but for the ids of its own nodes. -/
theorem BackAt.trail {xs ys : List (Symbol α)} (hxs : BackAt gait s xs) (hys : BackAt gait s ys) {f : Nat → Nat}
    (hfixed : ∀ i < (walk gait s).skeleton.nodes.size, f i = i) (zs : List (Symbol α))
    (hnext : ∀ j < (zs.map Symbol.tag).count 'F',
      f ((walk gait xs).skeleton.nodes.size + j) = (walk gait ys).skeleton.nodes.size + j) :
    (walk gait ys).trail zs = ((walk gait xs).trail zs).renumber f := by
  have hcarried : (walk gait xs).Carried f (walk gait ys) := by
    refine .of_fixed (by rw [gait_walk, gait_walk]) (hys.1.trans hxs.1.symm) (hys.2.trans hxs.2.symm) fun p hp => ?_
    rw [hxs.1, hxs.2] at hp
    exact hfixed _ ((sound_walk gait s).node_lt p hp)
  exact (hcarried.foldl (sound_walk gait xs) (sound_walk gait ys) zs hnext).2

end Orders

theorem size_nodes_twig (gait : Gait α) (s : List (Symbol α)) (w : Twig α) :
    (walk gait (s ++ w.symbols)).skeleton.nodes.size = (walk gait s).skeleton.nodes.size + w.steps := by
  rw [size_nodes_walk, size_nodes_walk, List.map_append, List.count_append, w.count_symbols]
  omega

/-- A twig adds a node and a segment for each of its steps. -/
theorem size_trail_twig (gait : Gait α) (s : List (Symbol α)) (w : Twig α) :
    ((walk gait s).trail w.symbols).nodes.size = w.steps ∧ ((walk gait s).trail w.symbols).segments.size = w.steps := by
  have hnodes := size_nodes_twig gait s w
  have hsize := (sound_walk gait s).arena.size
  have hsize' := (sound_walk gait (s ++ w.symbols)).arena.size
  rw [skeleton_walk_append, Skeleton.nodes_append, Array.size_append] at hnodes hsize'
  rw [Skeleton.segments_append, Array.size_append] at hsize'
  omega

/-- The parts of the walk over a sentence with two twigs side by side. -/
theorem skeleton_siblings (gait : Gait α) (s u : List (Symbol α)) (v w : Twig α) :
    (walk gait (s ++ v.symbols ++ w.symbols ++ u)).skeleton = (walk gait s).skeleton ++ (walk gait s).trail v.symbols ++
      (walk gait (s ++ v.symbols)).trail w.symbols ++ (walk gait (s ++ v.symbols ++ w.symbols)).trail u := by
  rw [skeleton_walk_append, skeleton_walk_append, skeleton_walk_append]

/-- Before the marks are set, the skeletons of both orders are the same but for the ids. -/
theorem renumbered_siblings (gait : Gait α) (s u : List (Symbol α)) (v w : Twig α) :
    (walk gait (s ++ v.symbols ++ w.symbols ++ u)).skeleton.Renumbered
      (swapBlocks (walk gait s).skeleton.nodes.size v.steps w.steps)
      (walk gait (s ++ w.symbols ++ v.symbols ++ u)).skeleton := by
  let low := (walk gait s).skeleton.nodes.size
  have hfixed : ∀ i < low, swapBlocks low v.steps w.steps i = i := fun i => swapBlocks_below
  have hhere : BackAt gait s s := ⟨rfl, rfl⟩
  -- each of the three parts behind `s` is walked from the same place in both orders
  have hv : (walk gait (s ++ w.symbols)).trail v.symbols =
      ((walk gait s).trail v.symbols).renumber (swapBlocks low v.steps w.steps) := by
    refine hhere.trail (hhere.twig w) hfixed _ fun j hj => ?_
    rw [v.count_symbols] at hj
    rw [size_nodes_twig]
    exact swapBlocks_first hj
  have hw : (walk gait s).trail w.symbols =
      ((walk gait (s ++ v.symbols)).trail w.symbols).renumber (swapBlocks low v.steps w.steps) := by
    refine (hhere.twig v).trail hhere hfixed _ fun j hj => ?_
    rw [w.count_symbols] at hj
    rw [size_nodes_twig]
    exact swapBlocks_second hj
  have hu : (walk gait (s ++ w.symbols ++ v.symbols)).trail u =
      ((walk gait (s ++ v.symbols ++ w.symbols)).trail u).renumber (swapBlocks low v.steps w.steps) := by
    refine ((hhere.twig v).twig w).trail ((hhere.twig w).twig v) hfixed _ fun j _ => ?_
    simp only [size_nodes_twig]
    rw [swapBlocks_behind (by omega)]
    omega
  obtain ⟨hnodes, hsegments⟩ := size_trail_twig gait s v
  obtain ⟨hnodes', hsegments'⟩ := size_trail_twig gait (s ++ v.symbols) w
  have hparts := Skeleton.renumbered_of_parts (walk gait s).skeleton ((walk gait s).trail v.symbols)
    ((walk gait (s ++ v.symbols)).trail w.symbols) ((walk gait (s ++ v.symbols ++ w.symbols)).trail u)
    (sound_walk gait s).arena.size (hnodes.trans hsegments.symm) (hnodes'.trans hsegments'.symm)
  rw [hnodes, hnodes', Skeleton.renumber_append, Skeleton.renumber_append, Skeleton.renumber_append,
    renumber_walk gait s hfixed, ← hv, ← hw, ← hu] at hparts
  rw [skeleton_siblings, skeleton_siblings]
  exact hparts

/-- **The order of sibling branches does not matter.** If two twigs side by side change places, the skeleton is the same
up to a permutation of the ids, which fixes the nodes made before the twigs, exchanges those of the one with those of the
other, and fixes the nodes made behind them. -/
theorem siblings_commute (gait : Gait α) (s u : List (Symbol α)) (v w : Twig α) :
    let low := (walk gait s).skeleton.nodes.size
    ∃ σ : Equiv.Perm Nat,
      (∀ i < low, σ i = i) ∧
      (∀ i < v.steps, σ (low + i) = low + w.steps + i) ∧
      (∀ i < w.steps, σ (low + v.steps + i) = low + i) ∧
      (∀ i, low + v.steps + w.steps ≤ i → σ i = i) ∧
      (Skeleton.ofSentence gait (s ++ v.symbols ++ w.symbols ++ u)).Renumbered σ
        (Skeleton.ofSentence gait (s ++ w.symbols ++ v.symbols ++ u)) := by
  intro low
  exact ⟨swapBlocks low v.steps w.steps, fun i => swapBlocks_below, fun i => swapBlocks_first,
    fun i => swapBlocks_second, fun i => swapBlocks_behind, (renumbered_siblings gait s u v w).annotate⟩

/-- A twig of one step to the side. -/
def shoot : Twig Float := .bare ['+', 'F'] (by decide)

/-- A fork of the spur and the shoot: the spur makes nodes 2 and 3 if it comes first, and 3 and 4 if the shoot does. -/
theorem siblings_commute_fork :
    let s : List (Symbol Float) := ['F'].map .bare
    let u : List (Symbol Float) := ['F'].map .bare
    ∃ σ : Equiv.Perm Nat, [0, 1, 2, 3, 4, 5].map σ = [0, 1, 3, 4, 2, 5] ∧
      (Skeleton.ofSentence Gait.standard (s ++ spur.symbols ++ shoot.symbols ++ u)).Renumbered σ
        (Skeleton.ofSentence Gait.standard (s ++ shoot.symbols ++ spur.symbols ++ u)) := by
  intro s u
  have hsize : (walk Gait.standard s).skeleton.nodes.size = 2 := by decide +kernel
  obtain ⟨σ, hbelow, hspur, hshoot, hbehind, hsame⟩ := siblings_commute Gait.standard s u spur shoot
  rw [hsize] at hbelow hspur hshoot hbehind
  refine ⟨σ, ?_, hsame⟩
  have h0 : σ 0 = 0 := hbelow 0 (by decide)
  have h1 : σ 1 = 1 := hbelow 1 (by decide)
  have h2 : σ 2 = 3 := hspur 0 (by decide)
  have h3 : σ 3 = 4 := hspur 1 (by decide)
  have h4 : σ 4 = 2 := hshoot 0 (by decide)
  have h5 : σ 5 = 5 := hbehind 5 (by decide)
  simp only [List.map_cons, List.map_nil, h0, h1, h2, h3, h4, h5]

end Turtle
end Arbor
