import Arbor.Leaf.Foliage
import Arbor.Proofs.Mesh.Groups
import Arbor.Proofs.Transducer

/-!
# What a leaf depends on

Every leaf takes seven words, whatever the settings (`LeafScatter.run_place`), so leaf `i` is placed with the words
`7 * i` to `7 * i + 6` of the stream (`LeafScatter.getElem?_placements`). Of these the first four decide about the
transform and the last three about the color: `Placement.transform` and `Placement.tint` say how, and name everything
else that a transform and a color depend on. The buffers give each leaf its own back (`Foliage.matrix?_ofLeaves`,
`Foliage.color?_ofLeaves`).
-/

namespace Arbor

open scoped Scalar

/-! ## The stream of words -/

namespace Rng

/-- The word behind the first `k` words. -/
def word (g : Rng) (k : Nat) : UInt32 := (g.skip k).next.1

theorem word_skip (g : Rng) (m k : Nat) : (g.skip m).word k = g.word (m + k) := by
  rw [word, word, skip_add]

end Rng

variable {α : Type} [Scalar α]

/-- The number in `[low, high)` that a word stands for. -/
def Draw.spread (low high : α) (word : UInt32) : α := low + fraction word * (high - low)

namespace Placement

/-- The transform of a leaf, with one word for its size and one for its turn about each axis. -/
def transform (scale sizeVariation rotationVariation : α) (leaf : Leaf α) (size x y z : UInt32) : List α :=
  let factor := Draw.spread (1 - sizeVariation) (1 + sizeVariation) size
  let angle := fun word => Scalar.radians (Draw.spread (-rotationVariation) rotationVariation word)
  let rotation := (leaf.orientation.compose (Quat.ofEuler (angle x) (angle y) (angle z))).normalize
  columns (leaf.size * factor * scale) rotation leaf.position

/-- The color of a leaf, with one word for each channel. -/
def tint (base : Rgb α) (variation : α) (red green blue : UInt32) : Rgb α :=
  let channel := fun base word => clamp (base + Draw.spread (-variation) variation word)
  ⟨channel base.red red, channel base.green green, channel base.blue blue⟩

theorem length_transform (scale sizeVariation rotationVariation : α) (leaf : Leaf α) (size x y z : UInt32) :
    (transform scale sizeVariation rotationVariation leaf size x y z).length = 16 := rfl

end Placement

/-! ## The words of a leaf -/

namespace LeafScatter

variable (s : LeafScatter α)

/-- The placement of a leaf that comes behind the first `k` words. -/
def placedAt (g : Rng) (k : Nat) (leaf : Leaf α) : Placement α where
  matrix := Placement.transform s.scale s.sizeVariation s.rotationVariation leaf (g.word k) (g.word (k + 1))
    (g.word (k + 2)) (g.word (k + 3))
  color := Placement.tint s.baseColor s.colorVariation (g.word (k + 4)) (g.word (k + 5)) (g.word (k + 6))

/-- **A leaf takes seven words,** variations of zero included. -/
theorem run_place (leaf : Leaf α) (g : Rng) : (s.place leaf).run g = (s.placedAt g 0 leaf, g.skip 7) := rfl

theorem placeNext_eq (g : Rng) (leaf : Leaf α) : s.placeNext g leaf = ([s.placedAt g 0 leaf], g.skip 7) := by
  rw [placeNext, run_place]

theorem placedAt_skip (g : Rng) (m k : Nat) (leaf : Leaf α) :
    s.placedAt (g.skip m) k leaf = s.placedAt g (m + k) leaf := by
  simp only [placedAt, Rng.word_skip, Nat.add_assoc]

/-- After `n` leaves `7 * n` words are gone. -/
theorem state_placeNext (g : Rng) (leaves : List (Leaf α)) :
    (s.placeNext.run g leaves).2 = g.skip (7 * leaves.length) := by
  induction leaves generalizing g with
  | nil => rfl
  | cons leaf leaves ih =>
    rw [Transducer.run_cons, placeNext_eq, ih, ← Rng.skip_add, List.length_cons, Nat.mul_succ, Nat.add_comm]

/-- **Leaf `i` is placed with the seven words from `7 * i` on.** -/
theorem getElem?_placements (seed : String) (leaves : List (Leaf α)) (i : Nat) :
    (s.placements seed leaves)[i]? =
      leaves[i]?.map (s.placedAt (Rng.ofSeed (seed ++ s.seedSuffix)) (7 * i)) := by
  have hwrite : ∀ g leaf, (s.placeNext g leaf).1 = [s.placedAt g 0 leaf] := fun g leaf => by rw [placeNext_eq]
  rw [placements, Transducer.getElem?_run hwrite, state_placeNext, List.length_take]
  cases hleaf : leaves[i]? with
  | none => rw [Option.map_none, Option.map_none]
  | some leaf =>
    obtain ⟨hi, -⟩ := List.getElem?_eq_some_iff.mp hleaf
    rw [Nat.min_eq_left (Nat.le_of_lt hi), Option.map_some, Option.map_some, placedAt_skip, Nat.add_zero]

theorem length_placements (seed : String) (leaves : List (Leaf α)) :
    (s.placements seed leaves).length = leaves.length :=
  Transducer.length_run (fun leaf _ g => by rw [placeNext_eq]; rfl) _

theorem mem_placements {seed : String} {leaves : List (Leaf α)} {p : Placement α}
    (hp : p ∈ s.placements seed leaves) : ∃ g k leaf, p = s.placedAt g k leaf := by
  obtain ⟨i, hi⟩ := List.mem_iff_getElem?.mp hp
  rw [getElem?_placements] at hi
  obtain ⟨leaf, -, rfl⟩ := Option.map_eq_some_iff.mp hi
  exact ⟨_, _, leaf, rfl⟩

end LeafScatter

/-! ## Buffers -/

namespace Foliage

/-- A buffer of whole groups is cut up again into the groups it was written from. -/
theorem block?_eq_map {β : Type} {buffer : Array Float32} {xs : List β} {f : β → List Float32} {n : Nat}
    (hbuffer : buffer.toList = xs.flatMap f) (hlength : ∀ x ∈ xs, (f x).length = n) (hn : 0 < n) (i : Nat) :
    block? buffer n i = xs[i]?.map fun x => (f x).toArray := by
  have hsize : buffer.size = xs.length * n := by
    rw [← Array.length_toList, hbuffer, length_flatMap_of_length n hlength]
  unfold block?
  cases hx : xs[i]? with
  | none =>
    have hi := Nat.mul_le_mul_right n (List.getElem?_eq_none_iff.mp hx)
    rw [if_neg (by rw [hsize, Nat.mul_comm n]; omega)]
    rfl
  | some x =>
    have hi := Nat.mul_le_mul_right n (Nat.succ_le_of_lt (List.getElem?_eq_some_iff.mp hx).1)
    rw [if_pos (by rw [hsize, Nat.mul_comm n]; rwa [Nat.succ_mul] at hi), Option.map_some]
    refine congrArg some (Array.ext' ?_)
    rw [Array.toList_extract, List.extract_eq_take_drop, hbuffer, Nat.add_sub_cancel_left,
      block_flatMap_of_length n hlength hx]

variable (s : LeafScatter Float) (seed : String) (leaves : List (Leaf Float))

theorem count_ofLeaves : (ofLeaves s seed leaves).count = leaves.length := by
  rw [ofLeaves, count_ofPlacements, LeafScatter.length_placements]

theorem length_matrix {p : Placement Float} (hp : p ∈ s.placements seed leaves) :
    (p.matrix.map Float.toSingle).length = 16 := by
  obtain ⟨g, k, leaf, rfl⟩ := s.mem_placements hp
  rw [List.length_map]
  exact Placement.length_transform ..

theorem size_matrices_ofLeaves : (ofLeaves s seed leaves).matrices.size = 16 * leaves.length := by
  rw [← Array.length_toList, ofLeaves, matrices_ofPlacements,
    length_flatMap_of_length 16 fun _ => length_matrix s seed leaves, LeafScatter.length_placements, Nat.mul_comm]

theorem size_colors_ofLeaves : (ofLeaves s seed leaves).colors.size = 3 * leaves.length := by
  rw [← Array.length_toList, ofLeaves, colors_ofPlacements, length_flatMap_of_length 3 fun _ _ => rfl,
    LeafScatter.length_placements, Nat.mul_comm]

theorem block?_matrices_ofLeaves (i : Nat) : block? (ofLeaves s seed leaves).matrices 16 i = leaves[i]?.map fun leaf =>
    ((s.placedAt (Rng.ofSeed (seed ++ s.seedSuffix)) (7 * i) leaf).matrix.map Float.toSingle).toArray := by
  rw [ofLeaves, block?_eq_map (matrices_ofPlacements _) (fun _ => length_matrix s seed leaves) (by decide),
    LeafScatter.getElem?_placements, Option.map_map]
  rfl

theorem block?_colors_ofLeaves (i : Nat) : block? (ofLeaves s seed leaves).colors 3 i = leaves[i]?.map fun leaf =>
    ((s.placedAt (Rng.ofSeed (seed ++ s.seedSuffix)) (7 * i) leaf).color.toList.map Float.toSingle).toArray := by
  rw [ofLeaves, block?_eq_map (colors_ofPlacements _) (fun _ _ => rfl) (by decide), LeafScatter.getElem?_placements,
    Option.map_map]
  rfl

/-- **The transform of leaf `i` is that of its own placement.** -/
theorem matrix?_ofLeaves {i : UInt64} (h : 16 * i.toNat + 16 < UInt64.size) :
    (ofLeaves s seed leaves).matrix? i = leaves[i.toNat]?.map fun leaf =>
      ((s.placedAt (Rng.ofSeed (seed ++ s.seedSuffix)) (7 * i.toNat) leaf).matrix.map Float.toSingle).toArray :=
  (slice?_eq_block? (n := 16) _ h).trans (block?_matrices_ofLeaves s seed leaves i.toNat)

/-- **The color of leaf `i` is that of its own placement.** -/
theorem color?_ofLeaves {i : UInt64} (h : 3 * i.toNat + 3 < UInt64.size) :
    (ofLeaves s seed leaves).color? i = leaves[i.toNat]?.map fun leaf =>
      ((s.placedAt (Rng.ofSeed (seed ++ s.seedSuffix)) (7 * i.toNat) leaf).color.toList.map Float.toSingle).toArray :=
  (slice?_eq_block? (n := 3) _ h).trans (block?_colors_ofLeaves s seed leaves i.toNat)

/-- Sixteen times `2 ^ 60` is nothing to a place. -/
theorem matrix?_wraps (f : Foliage) (i : UInt64) : f.matrix? (i + 1152921504606846976) = f.matrix? i := by
  have hplace : (i + 1152921504606846976) * 16 = i * 16 := by
    rw [UInt64.add_mul]
    exact UInt64.add_zero _
  rw [matrix?, matrix?, hplace]

/-! ## Two runs -/

variable {s seed leaves}
variable {s' : LeafScatter Float} {seed' : String} {leaves' : List (Leaf Float)} {i : UInt64}

/-- **A transform depends on its own leaf,** the stream, the scale and the variations of size and rotation. -/
theorem matrix?_congr (hi : 16 * i.toNat + 16 < UInt64.size)
    (hstream : Rng.ofSeed (seed ++ s.seedSuffix) = Rng.ofSeed (seed' ++ s'.seedSuffix))
    (hleaf : leaves[i.toNat]? = leaves'[i.toNat]?) (hscale : s.scale = s'.scale)
    (hsize : s.sizeVariation = s'.sizeVariation) (hrotation : s.rotationVariation = s'.rotationVariation) :
    (ofLeaves s seed leaves).matrix? i = (ofLeaves s' seed' leaves').matrix? i := by
  rw [matrix?_ofLeaves _ _ _ hi, matrix?_ofLeaves _ _ _ hi, hleaf]
  simp only [LeafScatter.placedAt, hstream, hscale, hsize, hrotation]

/-- **A color depends on its place,** the stream, the base color and the variation of color. -/
theorem color?_congr (hi : 3 * i.toNat + 3 < UInt64.size)
    (hstream : Rng.ofSeed (seed ++ s.seedSuffix) = Rng.ofSeed (seed' ++ s'.seedSuffix))
    (hthere : i.toNat < leaves.length) (hthere' : i.toNat < leaves'.length) (hbase : s.baseColor = s'.baseColor)
    (hvariation : s.colorVariation = s'.colorVariation) :
    (ofLeaves s seed leaves).color? i = (ofLeaves s' seed' leaves').color? i := by
  rw [color?_ofLeaves _ _ _ hi, color?_ofLeaves _ _ _ hi, List.getElem?_eq_getElem hthere,
    List.getElem?_eq_getElem hthere', Option.map_some, Option.map_some]
  simp only [LeafScatter.placedAt, hstream, hbase, hvariation]

end Foliage
end Arbor
