import Arbor.Proofs.Branch.Topology
import Arbor.Proofs.Tree.Stats
import Arbor.Proofs.Walk.Heading
import Mathlib.Analysis.SpecialFunctions.Trigonometric.Basic

/-!
# Rings are circles

Over exact numbers, with points of the circle for its directions, a ring about a center with a versor for its orientation
is a circle across the heading (`Ring.circular_around`): rotating keeps the directions at length one and square to the
heading, so that the normals are the rotated directions themselves. Nothing is asked of the radius; it may be zero, and
the normals are there all the same. So both rings of every tube are circles about the nodes of its segment, and in a
skeleton that was walked all nodes have versors (`Branch.rings_circular`).
-/

namespace Arbor

open scoped Scalar
open Scalar (Functions ofField)

variable {K : Type} [Field K]

/-- The way from one point to another. -/
def Vec3.way (v w : Vec3 K) : Vec3 K := ⟨w.x - v.x, w.y - v.y, w.z - v.z⟩

namespace Ring

/-- The directions of a ring of `n` vertices, in place of cosines and sines. -/
def directions (cosine sine : Nat → K) (n : Nat) : List (Vec3 K) := (List.range n).map fun i => ⟨cosine i, 0, sine i⟩

/-- **A ring is a circle** about a center and across an axis. -/
structure Circular (ring : Ring K) (center axis : Vec3 K) (radius : K) : Prop where
  /-- Every vertex is as far as the radius from the center, -/
  distance : ∀ p ∈ ring.positions, (center.way p).inner (center.way p) = radius ^ 2
  /-- in the plane through it that is square to the axis. -/
  level : ∀ p ∈ ring.positions, (center.way p).inner axis = 0
  /-- Every normal has length one, -/
  unit : ∀ m ∈ ring.normals, m.inner m = 1
  /-- is square to the axis, -/
  across : ∀ m ∈ ring.normals, m.inner axis = 0
  /-- and leads from the center to its vertex. -/
  outward : ring.positions = ring.normals.map fun m =>
    ⟨center.x + m.x * radius, center.y + m.y * radius, center.z + m.z * radius⟩

/-- A ring is a circle if each of its vertices lies where its normal leads, and the normals are as they should be. -/
theorem Circular.of_normals {ring : Ring K} {center axis : Vec3 K} {radius : K}
    (unit : ∀ m ∈ ring.normals, m.inner m = 1) (across : ∀ m ∈ ring.normals, m.inner axis = 0)
    (outward : ring.positions = ring.normals.map fun m =>
      ⟨center.x + m.x * radius, center.y + m.y * radius, center.z + m.z * radius⟩) :
    ring.Circular center axis radius := by
  refine ⟨fun p hp => ?_, fun p hp => ?_, unit, across, outward⟩
  · rw [outward] at hp
    obtain ⟨m, hm, rfl⟩ := List.mem_map.mp hp
    have hunit := unit m hm
    simp only [Vec3.inner, Vec3.way] at hunit ⊢
    linear_combination radius ^ 2 * hunit
  · rw [outward] at hp
    obtain ⟨m, hm, rfl⟩ := List.mem_map.mp hp
    have hacross := across m hm
    simp only [Vec3.inner, Vec3.way] at hacross ⊢
    linear_combination radius * hacross

variable [LinearOrder K]

/-- **A ring about a center is a circle,** across the heading of its orientation. -/
theorem circular_around {f : Functions K} (hsqrt : f.sqrt 1 = 1) (htiny : f.tiny < 1) {q : Quat K} (hq : q.Versor)
    {directions : List (Vec3 K)} (hdirections : ∀ d ∈ directions, d.y = 0 ∧ d.x * d.x + d.z * d.z = 1)
    (center : Vec3 K) (radius : K) :
    (@around K (ofField f) directions center q radius).Circular center (@Quat.heading K (ofField f) q) radius := by
  have hunit : ∀ d ∈ directions, (@Quat.rotate K (ofField f) q d).inner (@Quat.rotate K (ofField f) q d) = 1 := by
    intro d hd
    obtain ⟨hy, hxz⟩ := hdirections d hd
    rw [hq.inner_rotate, Vec3.inner, hy]
    linear_combination hxz
  have hacross : ∀ d ∈ directions, (@Quat.rotate K (ofField f) q d).inner (@Quat.heading K (ofField f) q) = 0 := by
    intro d hd
    rw [hq.inner_heading, (hdirections d hd).1]
  -- the normals are made directions once more, which leaves vectors of length one as they are
  have hnormals : (@around K (ofField f) directions center q radius).normals =
      directions.map (@Quat.rotate K (ofField f) q) :=
    List.map_congr_left fun d hd => Vec3.direction_of_inner hsqrt htiny (hunit d hd)
  refine Circular.of_normals ?_ ?_ ?_
  · rw [hnormals]
    exact List.forall_mem_map.mpr hunit
  · rw [hnormals]
    exact List.forall_mem_map.mpr hacross
  · rw [hnormals, List.map_map]
    rfl

end Ring

namespace Branch

/-- The nodes of a tube are those that its segment names. -/
theorem ends_of_mem_tubes {α : Type} [Scalar α] {s : Skeleton α} {textureScale : α} {t : Tube α}
    (ht : t ∈ tubes s textureScale) :
    t.segment ∈ s.segments ∧ s.node? t.segment.start = some t.start ∧ s.node? t.segment.finish = some t.finish := by
  refine Transducer.forall_mem_run (P := fun t : Tube α => t.segment ∈ s.segments ∧
    s.node? t.segment.start = some t.start ∧ s.node? t.segment.finish = some t.finish) (fun seg hseg v t ht => ?_) 0 t ht
  unfold tube at ht
  split at ht
  · obtain rfl := List.mem_singleton.mp ht
    exact ⟨Array.mem_toList_iff.mp hseg, ‹_›, ‹_›⟩
  · cases ht

variable [LinearOrder K]

/-- **The rings of all branches are circles.** Over exact numbers, in which the root of one is one and one is not too
small to have a direction, take any points of the circle for the directions of a ring. For every center, every versor and
every radius the ring is a circle with a vertex and a normal for each direction, about the center and across the heading,
which has length one. So in a skeleton whose nodes have versors both rings of every tube are circles with the radii of
its segment, about the nodes that the segment names and across their headings; and every skeleton that was walked is
such a skeleton, if sine and cosine are the coordinates of a point of the circle. -/
theorem rings_circular {f : Functions K} (hsqrt : f.sqrt 1 = 1) (htiny : f.tiny < 1) (n : Nat) {cosine sine : Nat → K}
    (hcircle : ∀ i < n, cosine i * cosine i + sine i * sine i = 1) :
    let directions := Ring.directions cosine sine n
    let heading := @Quat.heading K (ofField f)
    (∀ (center : Vec3 K) (q : Quat K) (radius : K), q.Versor →
      let ring := @Ring.around K (ofField f) directions center q radius
      ring.positions.length = n ∧ ring.normals.length = n ∧ (heading q).inner (heading q) = 1 ∧
        ring.Circular center (heading q) radius) ∧
    (∀ (s : Skeleton K) (textureScale : K), s.Versors → ∀ t ∈ @tubes K (ofField f) s textureScale,
      t.segment ∈ s.segments ∧ s.node? t.segment.start = some t.start ∧ s.node? t.segment.finish = some t.finish ∧
      (@Tube.startRing K (ofField f) directions t).Circular t.start.position (heading t.start.orientation)
        t.segment.startRadius ∧
      (@Tube.finishRing K (ofField f) directions t).Circular t.finish.position (heading t.finish.orientation)
        t.segment.finishRadius) ∧
    ((∀ x, f.cos x * f.cos x + f.sin x * f.sin x = 1) → ∀ (gait : Gait K) (sentence : List (Symbol K)),
      (@Skeleton.ofSentence K (ofField f) gait sentence).Versors) := by
  intro directions heading
  have hdirections : ∀ d ∈ directions, d.y = 0 ∧ d.x * d.x + d.z * d.z = 1 :=
    List.forall_mem_map.mpr fun i hi => ⟨rfl, hcircle i (List.mem_range.mp hi)⟩
  have hlength : directions.length = n := (List.length_map _).trans List.length_range
  refine ⟨fun center q radius hq => ⟨?_, ?_, (hq.inner_heading f _).trans Nat.cast_one,
    Ring.circular_around hsqrt htiny hq hdirections center radius⟩, fun s textureScale hs t ht => ?_,
    fun hturns gait sentence => (Turtle.versors_walk hsqrt htiny hturns gait sentence).skeleton.annotate⟩
  · exact (List.length_map _).trans hlength
  · exact (List.length_map _).trans hlength
  · obtain ⟨hsegment, hstart, hfinish⟩ := @ends_of_mem_tubes K (ofField f) s textureScale t ht
    exact ⟨hsegment, hstart, hfinish, Ring.circular_around hsqrt htiny (hs _ _ hstart) hdirections _ _,
      Ring.circular_around hsqrt htiny (hs _ _ hfinish) hdirections _ _⟩

/-- The functions of the real numbers. -/
noncomputable def realFunctions : Functions ℝ := ⟨Real.sqrt, Real.sin, Real.cos, Real.pi / 180, 1 / 10 ^ 24⟩

/-- Three steps, the second one on a branch of its own that turns away. -/
def fork : List (Symbol ℝ) := ['F', '[', '+', 'F', ']', 'F'].map Symbol.bare

/-- With the sines and cosines of the real numbers, the rings of a fork have eight vertices each on six circles. -/
theorem rings_circular_fork :
    let cosine : Nat → ℝ := fun i => Real.cos (i * (2 * Real.pi / 8))
    let sine : Nat → ℝ := fun i => Real.sin (i * (2 * Real.pi / 8))
    let directions := Ring.directions cosine sine 8
    let s := @Skeleton.ofSentence ℝ (ofField realFunctions) ⟨1 / 10, 7 / 10, 1, 30⟩ fork
    (realFunctions.sqrt 1 = 1 ∧ realFunctions.tiny < 1 ∧ ∀ i < 8, cosine i * cosine i + sine i * sine i = 1) ∧
    (@tubes ℝ (ofField realFunctions) s 1).length = 3 ∧
    ∀ t ∈ @tubes ℝ (ofField realFunctions) s 1,
      (@Tube.startRing ℝ (ofField realFunctions) directions t).Circular t.start.position
        (@Quat.heading ℝ (ofField realFunctions) t.start.orientation) t.segment.startRadius ∧
      (@Tube.finishRing ℝ (ofField realFunctions) directions t).Circular t.finish.position
        (@Quat.heading ℝ (ofField realFunctions) t.finish.orientation) t.segment.finishRadius := by
  intro cosine sine directions s
  have hsqrt : realFunctions.sqrt 1 = 1 := Real.sqrt_one
  have htiny : realFunctions.tiny < 1 := by norm_num [realFunctions]
  have hpoint (x : ℝ) : Real.cos x * Real.cos x + Real.sin x * Real.sin x = 1 := by
    linear_combination Real.cos_sq_add_sin_sq x
  have hcircle : ∀ i < 8, cosine i * cosine i + sine i * sine i = 1 := fun i _ => hpoint _
  obtain ⟨-, htubes, hwalked⟩ := rings_circular hsqrt htiny 8 hcircle
  have hversors := hwalked hpoint ⟨1 / 10, 7 / 10, 1, 30⟩ fork
  refine ⟨⟨hsqrt, htiny, hcircle⟩, ?_, fun t ht => (htubes s 1 hversors t ht).2.2.2⟩
  rw [@length_tubes ℝ (ofField realFunctions) s 1, @Skeleton.length_drawn_ofSentence ℝ (ofField realFunctions)]
  decide

end Branch
end Arbor
