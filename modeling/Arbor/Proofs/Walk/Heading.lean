import Arbor.Proofs.Skeleton.Annotation
import Arbor.Proofs.Space.Rotation
import Arbor.Proofs.Walk.Basic

/-!
# Which way a walk faces

Over exact numbers a turtle starts with a versor for its orientation and turns by versors, so the orientations of the
cursor, of the saved places and of all nodes are versors (`Turtle.versors_walk`), and normalizing them changes nothing.
-/

namespace Arbor

open Scalar (Functions ofField)

variable {K : Type} [Field K]

namespace Skeleton

/-- All nodes are oriented by versors. -/
def Versors (s : Skeleton K) : Prop := ∀ (i : Nat) (n : Node K), s.node? i = some n → n.orientation.Versor

/-- The marks do not matter for the orientations. -/
theorem Versors.annotate {s : Skeleton K} (h : s.Versors) : s.annotate.Versors := by
  intro i n hn
  rw [node?_annotate, Option.map_eq_some_iff] at hn
  obtain ⟨m, hm, rfl⟩ := hn
  exact h i m hm

end Skeleton

/-- The axes of a turtle have length one. -/
theorem Axis.inner_vector [LinearOrder K] (f : Functions K) (axis : Axis) :
    (@vector K (ofField f) axis).inner (@vector K (ofField f) axis) = 1 := by
  have haxis (a b c : ℕ) (h : a * a + b * b + c * c = 1) :
      (⟨(a : K), (b : K), (c : K)⟩ : Vec3 K).inner ⟨(a : K), (b : K), (c : K)⟩ = 1 := by
    show (a : K) * a + b * b + c * c = 1
    exact_mod_cast congrArg (Nat.cast (R := K)) h
  cases axis with
  | up => exact haxis 0 0 1 rfl
  | right => exact haxis 1 0 0 rfl
  | forward => exact haxis 0 1 0 rfl

namespace Turtle

/-- The turtle, the places saved and all nodes are oriented by versors. -/
structure Versors (t : Turtle K) : Prop where
  pose : t.pose.orientation.Versor
  saved : ∀ p ∈ t.saved, p.orientation.Versor
  skeleton : t.skeleton.Versors

variable {t : Turtle K}

theorem Versors.push (h : t.Versors) : t.push.Versors where
  pose := h.pose
  saved := List.forall_mem_cons.mpr ⟨h.pose, h.saved⟩
  skeleton := h.skeleton

theorem Versors.pop (h : t.Versors) : t.pop.Versors := by
  unfold Turtle.pop
  cases hsaved : t.saved with
  | nil => exact h
  | cons p rest =>
    obtain ⟨hp, hrest⟩ := List.forall_mem_cons.mp (hsaved ▸ h.saved)
    exact ⟨hp, hrest, h.skeleton⟩

variable [LinearOrder K]

theorem Versors.step (h : t.Versors) (f : Functions K) (length : K) : (@Turtle.step K (ofField f) t length).Versors where
  pose := h.pose
  saved := h.saved
  skeleton i n hn := by
    rcases @node?_step_cases K (ofField f) t length i n hn with ⟨-, rfl⟩ | hold
    · exact h.pose
    · exact h.skeleton i n hold

theorem versors_start (f : Functions K) (gait : Gait K) : (@start K (ofField f) gait).Versors where
  pose := Quat.versor_identity f
  saved := nofun
  skeleton i n hn := by
    obtain ⟨hi, hn⟩ := Array.getElem?_eq_some_iff.mp hn
    obtain rfl : i = 0 := Nat.lt_one_iff.mp hi
    rw [← hn]
    exact Quat.versor_identity f

section Turns

variable {f : Functions K} (hsqrt : f.sqrt 1 = 1) (htiny : f.tiny < 1)
  (hcircle : ∀ x, f.cos x * f.cos x + f.sin x * f.sin x = 1)

include hsqrt htiny hcircle

/-- A turn is a product of versors, which normalizing leaves as it is. -/
theorem Versors.turn (h : t.Versors) (axis : Axis) (angle : K) :
    ({ t with pose := @Pose.turn K (ofField f) t.pose axis angle } : Turtle K).Versors where
  pose := by
    have hturned := h.pose.compose (Quat.versor_turn hsqrt htiny hcircle (Axis.inner_vector f axis) angle) f
    show (@Quat.normalize K (ofField f) _).Versor
    rw [hturned.normalize hsqrt htiny]
    exact hturned
  saved := h.saved
  skeleton := h.skeleton

/-- **Every symbol leaves versors.** -/
theorem Versors.apply (h : t.Versors) (s : Symbol K) : (@Turtle.apply K (ofField f) t s).Versors :=
  @apply_induction K (ofField f) Versors t s (fun _ => h.step f _)
    (fun axis _ _ angle => h.turn hsqrt htiny hcircle axis angle) (fun _ => h.push) (fun _ => h.pop)
    (fun _ => ⟨h.pose, h.saved, h.skeleton⟩) (fun _ => h)

theorem versors_walk (gait : Gait K) (sentence : List (Symbol K)) : (@walk K (ofField f) gait sentence).Versors :=
  @walk_induction K (ofField f) (fun _ t => t.Versors) gait (versors_start f gait)
    (fun _ _ s h => h.apply hsqrt htiny hcircle s) sentence

end Turns

end Turtle
end Arbor
