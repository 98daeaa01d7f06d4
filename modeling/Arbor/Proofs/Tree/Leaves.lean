import Arbor.Proofs.Leaf.Foliage
import Arbor.Proofs.Plan.Shape
import Arbor.Tree

/-!
# The randomness of leaves

The draws of a leaf are its own. Seven of them belong to each place, so no leaf moves the draws of another, and a
transform and a color depend on the settings that they are made with and on nothing else. Nor do leaves draw from the
stream that grows the sentence: a plan with other settings of the leaves has the same branches
(`Tree.ofPlan_other_leaves`).
-/

namespace Arbor

open scoped Scalar

namespace Tree

/-- A grown tree without its leaves: the branches, and all counts but that of the triangles. -/
def bare (t : Tree) : Mesh × TreeStats := (t.branches, { t.stats with triangles := 0 })

theorem ofPlan_eq {p : Plan Float} (hp : p.check = .ok ()) :
    Tree.ofPlan p = (p.grammar.expandWithin Plan.maxSymbols p.iterations p.seed).map fun sentence =>
      ofSkeleton p (.ofSentence p.gait sentence) sentence.length := by
  unfold ofPlan
  rw [Plan.skeleton_eq hp]
  cases p.grammar.expandWithin Plan.maxSymbols p.iterations p.seed <;> rfl

/-- What is left of a tree without its leaves is made from the skeleton and the bark. -/
theorem bare_ofSkeleton (p : Plan Float) (skeleton : Skeleton Float) (symbols : Nat) :
    (ofSkeleton p skeleton symbols).bare = (Branch.mesh skeleton p.bark,
      ⟨0, skeleton.segments.size, skeleton.leaves.size, symbols, skeleton.nodes.size⟩) := rfl

/-- **The settings of the leaves leave the rest of a tree alone.** -/
theorem ofPlan_other_leaves {p : Plan Float} (shape : LeafShape Float) (scatter : LeafScatter Float)
    (hp : p.check = .ok ()) (hq : { p with leafShape := shape, scatter := scatter }.check = .ok ()) :
    (Tree.ofPlan p).map bare = (Tree.ofPlan { p with leafShape := shape, scatter := scatter }).map bare := by
  have hother : Tree.ofPlan { p with leafShape := shape, scatter := scatter } =
      (p.grammar.expandWithin Plan.maxSymbols p.iterations p.seed).map fun sentence =>
        ofSkeleton { p with leafShape := shape, scatter := scatter } (.ofSentence p.gait sentence) sentence.length :=
    ofPlan_eq hq
  rw [ofPlan_eq hp, hother]
  cases p.grammar.expandWithin Plan.maxSymbols p.iterations p.seed with
  | error e => simp only [Except.map]
  | ok sentence =>
    simp only [Except.map]
    rw [bare_ofSkeleton p, bare_ofSkeleton { p with leafShape := shape, scatter := scatter }]

/-- **The randomness of leaves is local.** The stream of the leaves is that of the seed with the suffix behind it.

* The buffers hold one transform and one color for each leaf. Leaf `i` comes behind `7 * i` words, takes seven, and is
  placed with these. Its transform and its color are in place `i`, and nothing is in a place without a leaf, as long as
  a word has room for the end of the place.
* A transform stays the same as long as its leaf, its place, the stream, the scale and the variations of size and
  rotation do; a color as long as its place, the stream, the base color and the variation of color do.
* Two accepted plans that differ in nothing but their leaves grow the same tree apart from these, or are refused with
  the same error. -/
theorem leaf_randomness_local :
    (∀ (s : LeafScatter Float) (seed : String) (leaves : List (Leaf Float)),
      let stream := Rng.ofSeed (seed ++ s.seedSuffix)
      let f := Foliage.ofLeaves s seed leaves
      f.count = leaves.length ∧ f.matrices.size = 16 * f.count ∧ f.colors.size = 3 * f.count ∧
      (∀ i leaf, leaves[i]? = some leaf →
        (s.placeNext.run stream (leaves.take i)).2 = stream.skip (7 * i) ∧
        (s.place leaf).run (stream.skip (7 * i)) = (s.placedAt stream (7 * i) leaf, stream.skip (7 * i + 7))) ∧
      ∀ i : UInt64,
        (16 * i.toNat + 16 < UInt64.size → ((f.matrix? i).isSome ↔ i.toNat < f.count) ∧
          ∀ leaf, leaves[i.toNat]? = some leaf →
            f.matrix? i = some ((s.placedAt stream (7 * i.toNat) leaf).matrix.map Float.toSingle).toArray) ∧
        (3 * i.toNat + 3 < UInt64.size → ((f.color? i).isSome ↔ i.toNat < f.count) ∧
          ∀ leaf, leaves[i.toNat]? = some leaf →
            f.color? i = some ((s.placedAt stream (7 * i.toNat) leaf).color.toList.map Float.toSingle).toArray)) ∧
    (∀ (s s' : LeafScatter Float) (seed seed' : String) (leaves leaves' : List (Leaf Float)) (i : UInt64),
      Rng.ofSeed (seed ++ s.seedSuffix) = Rng.ofSeed (seed' ++ s'.seedSuffix) →
      let f := Foliage.ofLeaves s seed leaves
      let f' := Foliage.ofLeaves s' seed' leaves'
      (16 * i.toNat + 16 < UInt64.size → leaves[i.toNat]? = leaves'[i.toNat]? → s.scale = s'.scale →
        s.sizeVariation = s'.sizeVariation → s.rotationVariation = s'.rotationVariation →
        f.matrix? i = f'.matrix? i) ∧
      (3 * i.toNat + 3 < UInt64.size → i.toNat < leaves.length → i.toNat < leaves'.length → s.baseColor = s'.baseColor →
        s.colorVariation = s'.colorVariation → f.color? i = f'.color? i)) ∧
    ∀ (p : Plan Float) (shape : LeafShape Float) (scatter : LeafScatter Float),
      let q := { p with leafShape := shape, scatter := scatter }
      p.check = .ok () → q.check = .ok () → (Tree.ofPlan p).map bare = (Tree.ofPlan q).map bare := by
  refine ⟨fun s seed leaves => ?_, fun s s' seed seed' leaves leaves' i hstream => ?_, fun p shape scatter => ?_⟩
  · intro stream f
    have hcount : f.count = leaves.length := Foliage.count_ofLeaves s seed leaves
    have hpresent : ∀ i, leaves[i]?.isSome ↔ i < f.count := fun i => by simp [hcount]
    refine ⟨hcount, ?_, ?_, fun i leaf hleaf => ?_, fun i => ⟨fun hi => ?_, fun hi => ?_⟩⟩
    · rw [hcount]
      exact Foliage.size_matrices_ofLeaves s seed leaves
    · rw [hcount]
      exact Foliage.size_colors_ofLeaves s seed leaves
    · obtain ⟨hi, -⟩ := List.getElem?_eq_some_iff.mp hleaf
      constructor
      · rw [LeafScatter.state_placeNext, List.length_take_of_le (Nat.le_of_lt hi)]
      · rw [LeafScatter.run_place, LeafScatter.placedAt_skip, Nat.add_zero, Rng.skip_add]
    · rw [Foliage.matrix?_ofLeaves s seed leaves hi, Option.isSome_map, hpresent]
      exact ⟨Iff.rfl, fun leaf hleaf => by rw [hleaf, Option.map_some]⟩
    · rw [Foliage.color?_ofLeaves s seed leaves hi, Option.isSome_map, hpresent]
      exact ⟨Iff.rfl, fun leaf hleaf => by rw [hleaf, Option.map_some]⟩
  · exact ⟨fun hi => Foliage.matrix?_congr hi hstream, fun hi => Foliage.color?_congr hi hstream⟩
  · exact ofPlan_other_leaves shape scatter

/-- A leaf on the first axis. -/
def leafAt (x : Float) : Leaf Float := ⟨⟨x, 0.0, 0.0⟩, .identity, 1.0⟩

/-- Leaves of another color and without jitter of it, from the same stream if the seed ends with a dash. -/
def russet : LeafScatter Float :=
  { LeafScatter.standard with baseColor := ⟨0.6, 0.3, 0.1⟩, colorVariation := 0.0, seedSuffix := "leaves" }

/-- Large leaves, all of one size and none of them turned. -/
def flat : LeafScatter Float :=
  { LeafScatter.standard with scale := 3.0, sizeVariation := 0.0, rotationVariation := 0.0 }

/-- The second of two leaves: it stays where it is if the first moves, a third comes and the colors change, and keeps its
color if the sizes change. The bush has the same branches with leaves of either kind. -/
theorem leaf_randomness_local_second :
    let two := [leafAt 1.0, leafAt 2.0]
    let three := [leafAt 5.0, leafAt 2.0, leafAt 7.0]
    let stream := Rng.ofSeed ("oak" ++ LeafScatter.standard.seedSuffix)
    let f := Foliage.ofLeaves LeafScatter.standard "oak" two
    let q := { Plan.bush with leafShape := ⟨0.1, 0.9, 0.0, 5⟩, scatter := flat }
    (LeafScatter.standard.placeNext.run stream [leafAt 1.0]).2 = stream.skip 7 ∧
    ((LeafScatter.standard.place (leafAt 2.0)).run (stream.skip 7)).2 = stream.skip 14 ∧
    (f.matrix? 1).isSome ∧ (f.color? 2).isSome = false ∧
    f.matrix? 1 = (Foliage.ofLeaves russet "oak-" three).matrix? 1 ∧
    f.color? 1 = (Foliage.ofLeaves flat "oak" three).color? 1 ∧
    Plan.bush.check = .ok () ∧ q.check = .ok () ∧ (Tree.ofPlan Plan.bush).map bare = (Tree.ofPlan q).map bare := by
  intro two three stream f q
  obtain ⟨hlocal, htwo, hplans⟩ := leaf_randomness_local
  obtain ⟨hcount, -, -, hwords, hplaces⟩ := hlocal LeafScatter.standard "oak" two
  obtain ⟨hbefore, hrun⟩ := hwords 1 (leafAt 2.0) rfl
  have hseed : "oak" ++ LeafScatter.standard.seedSuffix = "oak-" ++ russet.seedSuffix := by decide
  have htwoSecond : two[(1 : UInt64).toNat]? = some (leafAt 2.0) := rfl
  have hthreeSecond : three[(1 : UInt64).toNat]? = some (leafAt 2.0) := rfl
  have hmove := (htwo LeafScatter.standard russet "oak" "oak-" two three 1 (congrArg Rng.ofSeed hseed)).1
    (by decide) (htwoSecond.trans hthreeSecond.symm) rfl rfl rfl
  have hflat := (htwo LeafScatter.standard flat "oak" "oak" two three 1 rfl).2 (by decide) (by decide) (by decide) rfl rfl
  have hbush : Plan.bush.check = .ok () := by decide +kernel
  have hq : q.check = .ok () := by decide +kernel
  refine ⟨hbefore, congrArg Prod.snd hrun, ?_, ?_, hmove, hflat, hbush, hq, hplans Plan.bush _ _ hbush hq⟩
  · rw [((hplaces 1).1 (by decide)).1, hcount]
    decide
  · rw [Bool.eq_false_iff, ne_eq, ((hplaces 2).2 (by decide)).1, hcount]
    decide

/-- So far behind the only leaf that the place wraps, its transform is found again. -/
theorem leaf_randomness_wraps :
    let f := Foliage.ofLeaves LeafScatter.standard "oak" [leafAt 1.0]
    f.count = 1 ∧ (f.matrix? 1152921504606846976).isSome ∧ ¬(1152921504606846976 : UInt64).toNat < f.count := by
  intro f
  have hcount : f.count = 1 := Foliage.count_ofLeaves ..
  have hfirst : f.matrix? 1152921504606846976 = f.matrix? 0 := Foliage.matrix?_wraps f 0
  refine ⟨hcount, ?_, ?_⟩
  · rw [hfirst, Foliage.matrix?_ofLeaves _ _ _ (by decide)]
    rfl
  · rw [hcount]
    decide

end Tree
end Arbor
