import Arbor.Proofs.Branch.Texture
import Arbor.Proofs.Growth.Dated
import Arbor.Proofs.Plan.Check
import Arbor.Proofs.Sentence.Jitter
import Arbor.Proofs.Walk.Basic

/-!
# Lengths over exact numbers

Over exact numbers no length is negative, whatever is drawn. A step keeps between the least and the greatest part that a
jitter makes of the length of its depth (`Symbol.MadeAt.spans`), and the least is not negative, since variability is at
most one. Every segment of a walk has the length of a step of its sentence (`Turtle.exists_step`, `Plan.length_nonneg`),
and so the texture, which moves on by these lengths, never goes back (`Branch.monotone_textureAt`).
-/

namespace Arbor

/-! ## Segments are steps -/

/-- **Every segment has the length of a step.** -/
theorem Turtle.exists_step {α : Type} [Scalar α] (gait : Gait α) (sentence : List (Symbol α)) :
    ∀ seg ∈ (walk gait sentence).skeleton.segments, ∃ s ∈ sentence, s.tag = 'F' ∧
      seg.length = s.length.getD gait.defaultLength := by
  suffices h : (walk gait sentence).gait = gait ∧ ∀ seg ∈ (walk gait sentence).skeleton.segments, ∃ s ∈ sentence,
      s.tag = 'F' ∧ seg.length = s.length.getD gait.defaultLength from h.2
  refine walk_induction (P := fun xs t => t.gait = gait ∧ ∀ seg ∈ t.skeleton.segments, ∃ s ∈ xs,
    s.tag = 'F' ∧ seg.length = s.length.getD gait.defaultLength) ⟨rfl, nofun⟩ ?_ sentence
  rintro xs t s ⟨hgait, hsegments⟩
  refine ⟨(gait_apply t s).trans hgait, fun seg hseg => ?_⟩
  have hkept : seg ∈ t.skeleton.segments → ∃ s' ∈ xs ++ [s], s'.tag = 'F' ∧
      seg.length = s'.length.getD gait.defaultLength := by
    intro hold
    obtain ⟨s', hs', hstep⟩ := hsegments seg hold
    exact ⟨s', List.mem_append_left [s] hs', hstep⟩
  by_cases hs : s.command = .forward
  · rw [apply_forward t hs] at hseg
    rcases Array.mem_push.mp hseg with hold | rfl
    · exact hkept hold
    · exact ⟨s, List.mem_append_right xs (List.mem_singleton_self s), Symbol.command_eq_forward.mp hs, by rw [hgait]⟩
  · rw [(made_apply t hs).2] at hseg
    exact hkept hseg

section Exact

variable {K : Type} [Field K] [LinearOrder K]

open Scalar (Functions ofField)
open Sentence (opened)

/-! ## Lengths of steps -/

/-- The step has a length that a jitter may make of a full one. -/
def Symbol.Spans (full variability : K) (s : Symbol K) : Prop :=
  ∃ length, s.length = some length ∧ full * (1 - variability) ≤ length ∧ length ≤ full * (1 + variability)

variable [IsStrictOrderedRing K]

theorem Symbol.Spans.nonneg {full variability : K} {s : Symbol K} (h : s.Spans full variability) (hfull : 0 ≤ full)
    (hone : variability ≤ 1) : ∃ length, s.length = some length ∧ 0 ≤ length := by
  obtain ⟨length, hlength, hleast, -⟩ := h
  exact ⟨length, hlength, (mul_nonneg hfull (sub_nonneg.mpr hone)).trans hleast⟩

/-- **A step keeps between the least and the greatest length of the depth at which it was made.** -/
theorem Symbol.MadeAt.spans (f : Functions K) {habit : Habit K} (hh : @Habit.check K (ofField f) habit = .ok ())
    {depth : Nat} {s : Symbol K} (h : @Symbol.MadeAt K (ofField f) habit depth s) (hstep : s.tag = 'F') :
    s.Spans (habit.baseLength * @Scalar.decay K (ofField f) habit.lengthFalloff depth) habit.variability := by
  obtain ⟨rng, hlength⟩ := @Symbol.MadeAt.length_eq K (ofField f) habit depth s h hstep
  obtain ⟨-, -, hvariability, -⟩ := Habit.bounds_of_check f hh
  obtain ⟨hleast, hgreatest⟩ := Draw.jitter_bounds f hvariability rng
  have hfull := Habit.full_nonneg f hh depth
  exact ⟨_, hlength, mul_le_mul_of_nonneg_left hleast hfull, mul_le_mul_of_nonneg_left hgreatest hfull⟩

/-- Every step of a sentence has a length, and it is not negative. -/
theorem Grammar.exists_length (f : Functions K) {g : Grammar K} (hh : @Habit.check K (ofField f) g.habit = .ok ())
    (hliteral : ∀ r ∈ g.rules, ∃ text, r.produce = .literal text) (n : Nat) (seed : String) :
    ∀ s ∈ @expand K (ofField f) g n seed, s.tag = 'F' → ∃ length, s.length = some length ∧ 0 ≤ length := by
  intro s hs hstep
  have hnoted := @notedAs_expandNoted K (ofField f) g hliteral n seed
  rw [← @NotedAs.map_fst K (ofField f) _ _ _ hnoted] at hs
  obtain ⟨⟨s, depth⟩, hx, rfl⟩ := List.mem_map.mp hs
  have hmade := @NotedAs.madeAt K (ofField f) _ _ _ hnoted _ hx
  obtain ⟨-, -, -, hone⟩ := Habit.bounds_of_check f hh
  exact (Symbol.MadeAt.spans f hh hmade hstep).nonneg (Habit.full_nonneg f hh depth) hone

/-! ## Lengths of segments -/

/-- **No segment of an accepted plan has a negative length.** -/
theorem Plan.length_nonneg (f : Functions K) {p : Plan K} (hh : @Habit.check K (ofField f) p.grammar.habit = .ok ())
    (hliteral : ∀ r ∈ p.grammar.rules, ∃ text, r.produce = .literal text) {s : Skeleton K} {symbols : Nat}
    (hs : @Plan.skeleton K (ofField f) p = .ok (s, symbols)) : ∀ seg ∈ s.segments, 0 ≤ seg.length := by
  obtain ⟨sentence, hsentence, rfl, -⟩ := (@skeleton_eq_ok_iff K (ofField f) p s symbols).mp hs
  obtain ⟨-, hgrown⟩ := (@sentence_eq_ok_iff K (ofField f) p sentence).mp hsentence
  obtain rfl := @Grammar.eq_expand_of_expandWithin K (ofField f) p.grammar _ _ _ _ hgrown
  intro seg hseg
  obtain ⟨step, hmem, htag, hlength⟩ := @Turtle.exists_step K (ofField f) p.gait _ seg hseg
  obtain ⟨length, hsome, hnonneg⟩ := Grammar.exists_length f hh hliteral _ _ step hmem htag
  rw [hlength, hsome]
  exact hnonneg

/-- A plan that grows a skeleton comes nowhere near the depth at which exponents turn negative. -/
theorem Plan.opened_lt {α : Type} [Scalar α] {p : Plan α} {s : Skeleton α} {symbols : Nat}
    (hs : p.skeleton = .ok (s, symbols)) : opened (p.grammar.expand p.iterations p.seed) < 2147483648 := by
  obtain ⟨sentence, hsentence, -, -⟩ := skeleton_eq_ok_iff.mp hs
  obtain ⟨-, hgrown⟩ := sentence_eq_ok_iff.mp hsentence
  have hlimit : sentence.length ≤ 2000000 := Grammar.length_le_of_expandWithin p.grammar hgrown
  have hopened := Sentence.opened_le_length sentence
  rw [← Grammar.eq_expand_of_expandWithin p.grammar hgrown]
  omega

/-! ## The texture along the segments -/

omit [IsStrictOrderedRing K] in
/-- An accepted plan has bark whose texture is not laid backwards. -/
theorem Plan.textureScale_of_check (f : Functions K) {p : Plan K} (hp : @Plan.check K (ofField f) p = .ok ()) :
    0 ≤ p.bark.textureScale := by
  obtain ⟨-, -, -, hsettings, -⟩ := (@Plan.check_eq_ok_iff K (ofField f) p).mp hp
  obtain ⟨hrow, -⟩ := Except.check_bind_eq_ok.mp hsettings
  have hscale := Except.forM_eq_ok_iff.mp hrow ("branch.texture_scale", p.bark.textureScale) (by simp [nonNegatives])
  exact (Setting.nonNegative_ofField f).mp hscale

/-- Segments that are not negative never take the texture back. -/
theorem Branch.monotone_textureAt (f : Functions K) {s : Skeleton K} {textureScale : K} (hscale : 0 ≤ textureScale)
    (hs : ∀ seg ∈ s.segments, 0 ≤ seg.length) : Monotone (@textureAt K (ofField f) s textureScale) := by
  refine monotone_nat_of_le_succ fun k => ?_
  rcases Nat.lt_or_ge k s.drawn.length with hk | hk
  · have hseg : s.drawn[k] ∈ s.segments := Array.mem_toList_iff.mp (List.mem_filter.mp (List.getElem_mem hk)).1
    have hsucc : @textureAt K (ofField f) s textureScale (k + 1) =
        @textureAt K (ofField f) s textureScale k + s.drawn[k].length * textureScale :=
      @textureAt_succ K (ofField f) s textureScale k _ (List.getElem?_eq_getElem hk)
    rw [hsucc]
    exact le_add_of_nonneg_right (mul_nonneg (hs _ hseg) hscale)
  · refine le_of_eq ?_
    unfold textureAt
    rw [List.take_of_length_le hk, List.take_of_length_le (Nat.le_succ_of_le hk)]

/-- **No grown length is negative.** Over exact numbers, a jitter with a variability `v` keeps between `1 - v` and
`1 + v`. So every step that literal rules grow keeps between these parts of the length that the habit leaves of the depth
at which it was made. This is the base length times a power of the falloff, unless more branches are open than exponents
can count. In an accepted plan with such a grammar there are never so many, no segment has a negative length, and the
texture of the branches never goes back along the vertices. -/
theorem Plan.lengths_nonneg (f : Functions K) :
    (∀ v : K, 0 ≤ v → v ≤ 1 → ∀ rng : Rng, 1 - v ≤ ((@Draw.jitter K (ofField f) v).run rng).1 ∧
      ((@Draw.jitter K (ofField f) v).run rng).1 ≤ 1 + v) ∧
    (∀ g : Grammar K, @Habit.check K (ofField f) g.habit = .ok () →
      (∀ r ∈ g.rules, ∃ text, r.produce = .literal text) → ∀ (n : Nat) (seed : String),
      (@Grammar.expandNoted K (ofField f) g n seed).map Prod.fst = @Grammar.expand K (ofField f) g n seed ∧
      ∀ s depth, (s, depth) ∈ @Grammar.expandNoted K (ofField f) g n seed →
        @Symbol.MadeAt K (ofField f) g.habit depth s ∧ depth ≤ opened (@Grammar.expand K (ofField f) g n seed) ∧
        (s.tag = 'F' → s.Spans (g.habit.baseLength * @Scalar.decay K (ofField f) g.habit.lengthFalloff depth)
          g.habit.variability) ∧
        (depth < 2147483648 →
          @Scalar.decay K (ofField f) g.habit.lengthFalloff depth = g.habit.lengthFalloff ^ depth)) ∧
    ∀ p : Plan K, @Plan.check K (ofField f) p = .ok () → @Habit.check K (ofField f) p.grammar.habit = .ok () →
      (∀ r ∈ p.grammar.rules, ∃ text, r.produce = .literal text) → ∀ (s : Skeleton K) (symbols : Nat),
      @Plan.skeleton K (ofField f) p = .ok (s, symbols) →
      opened (@Grammar.expand K (ofField f) p.grammar p.iterations p.seed) < 2147483648 ∧
      (∀ seg ∈ s.segments, 0 ≤ seg.length) ∧ ∀ directions : List (Vec3 K),
        ((@Branch.vertices K (ofField f) s p.bark.textureScale directions).map Vertex.v).Pairwise (· ≤ ·) := by
  refine ⟨fun v hv _ rng => Draw.jitter_bounds f hv rng, fun g hh hliteral n seed => ?_,
    fun p hp hh hliteral s symbols hs => ?_⟩
  · have hnoted := @Grammar.notedAs_expandNoted K (ofField f) g hliteral n seed
    refine ⟨@NotedAs.map_fst K (ofField f) _ _ _ hnoted, fun s depth hx => ?_⟩
    have hmade := @NotedAs.madeAt K (ofField f) _ _ _ hnoted _ hx
    exact ⟨hmade, @Grammar.note_le_opened_expand K (ofField f) g hliteral n seed _ hx,
      fun hstep => Symbol.MadeAt.spans f hh hmade hstep, fun hdepth => Scalar.decay_ofField_of_lt f _ hdepth⟩
  · have hlengths := Plan.length_nonneg f hh hliteral hs
    have hmono := Branch.monotone_textureAt f (Plan.textureScale_of_check f hp) hlengths
    exact ⟨@Plan.opened_lt K (ofField f) p s symbols hs, hlengths, fun directions =>
      @Branch.pairwise_v K (ofField f) s p.bark.textureScale (· ≤ ·) (fun {k l} h => hmono h) directions⟩

end Exact

/-- The rational numbers, with functions that stand for those they do not have. -/
@[reducible] def Scalar.rational : Scalar ℚ := .ofField ⟨id, id, id, 1, 0⟩

namespace Plan

/-- A tendril that leaves all of its lengths to chance, in rational numbers. -/
def tendril : Plan ℚ where
  grammar := ⟨"F[+FA]", [⟨'A', 1, .literal "[&FA]"⟩, ⟨'A', 3, .literal "F]A"⟩, ⟨'F', 1, .literal "F"⟩],
    ⟨2, 1, 1 / 2, 1, 30, 1⟩⟩
  iterations := 3
  seed := "vine"
  gait := ⟨1, 1, 1, 30⟩
  bark := ⟨3, 1 / 2⟩
  leafShape := ⟨1, 1, 0, 1⟩
  scatter := ⟨1, 0, 0, ⟨0, 1, 0⟩, 0, "-leaves"⟩

/-- The tendril is accepted and grows; a step that it makes one branch deep is at most twice half of the base length long. -/
theorem lengths_nonneg_tendril :
    @Plan.check ℚ .rational tendril = .ok () ∧ @Habit.check ℚ .rational tendril.grammar.habit = .ok () ∧
    (∃ s, (s, 1) ∈ @Grammar.expandNoted ℚ .rational tendril.grammar 3 "vine" ∧ s.tag = 'F' ∧
      s.Spans (2 * (1 / 2) ^ 1) 1) ∧
    ∃ s symbols, @Plan.skeleton ℚ .rational tendril = .ok (s, symbols) ∧ (∀ seg ∈ s.segments, 0 ≤ seg.length) ∧
      ((@Branch.vertices ℚ .rational s (1 / 2) [⟨1, 0, 0⟩, ⟨0, 0, 1⟩, ⟨-1, 0, -1⟩]).map Vertex.v).Pairwise (· ≤ ·) := by
  have hcheck : @Plan.check ℚ .rational tendril = .ok () := by decide +kernel
  have hhabit : @Habit.check ℚ .rational tendril.grammar.habit = .ok () := by decide +kernel
  have hliteral : ∀ r ∈ tendril.grammar.rules, ∃ text, r.produce = .literal text := by
    intro r hr
    simp only [tendril, List.mem_cons, List.not_mem_nil, or_false] at hr
    rcases hr with rfl | rfl | rfl <;> exact ⟨_, rfl⟩
  have hstep : ∃ x ∈ @Grammar.expandNoted ℚ .rational tendril.grammar 3 "vine", x.2 = 1 ∧ x.1.tag = 'F' := by
    decide +kernel
  have hgrown : (@Plan.skeleton ℚ .rational tendril).toBool = true := by decide +kernel
  obtain ⟨-, hgrammar, hplan⟩ := lengths_nonneg (K := ℚ) ⟨id, id, id, 1, 0⟩
  refine ⟨hcheck, hhabit, ?_, ?_⟩
  · obtain ⟨⟨s, depth⟩, hx, rfl, htag⟩ := hstep
    obtain ⟨-, -, hspans, hpower⟩ := (hgrammar tendril.grammar hhabit hliteral 3 "vine").2 s 1 hx
    rw [hpower (by decide)] at hspans
    exact ⟨s, hx, htag, hspans htag⟩
  · cases hs : @Plan.skeleton ℚ .rational tendril with
    | error e =>
      rw [hs] at hgrown
      cases hgrown
    | ok out =>
      obtain ⟨-, hlengths, hv⟩ := hplan tendril hcheck hhabit hliteral out.1 out.2 hs
      exact ⟨out.1, out.2, rfl, hlengths, hv _⟩

end Plan
end Arbor
