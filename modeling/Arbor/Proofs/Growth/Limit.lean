import Arbor.Expansion
import Mathlib.Data.Nat.Find
import Mathlib.Order.Bounds.Basic

/-!
# Growth under a limit

The bounded pass stops in the middle of a generation, in the middle of the random stream. It still decides what the
finished generation decides, because the output of a pass only grows (`Transducer.runWithin_eq`):

* a pass under a limit is the full pass, refused exactly if its result is too long (`rewriteWithin_eq`), and the pass
  that a list can hold loses nothing that fits (`rewriteHeld_eq`);
* growth under a limit hands the same sentence and generator from one generation to the next as free growth
  (`growWithin_ok`), and is refused at the first generation that is too long (`growWithin_error`);
* hence `expandWithin` is `expand`, or names that generation (`expandWithin_spec`), and what it gives keeps the limit
  (`length_le_of_expandWithin`) and is the sentence of `expand` (`eq_expand_of_expandWithin`).
-/

namespace Arbor
namespace Grammar

variable {α : Type} [Scalar α] (g : Grammar α)

/-! ## One generation -/

/-- **The bounded pass is the full pass,** refused exactly when its result is longer than the limit. -/
theorem rewriteWithin_eq (limit : Nat) (sentence : List (Symbol α)) (rng : Rng) :
    g.rewriteWithin limit sentence rng =
      if (g.rewrite sentence rng).1.length ≤ limit then some (g.rewrite sentence rng) else none := by
  unfold rewriteWithin
  rw [Transducer.runWithin_eq]
  by_cases h : (g.rewriteSymbol.run ⟨0, rng⟩ sentence).1.length ≤ limit
  · rw [if_pos h, if_pos (by exact h)]; rfl
  · rw [if_neg h, if_neg (by exact h)]; rfl

/-- A generation that fits in a list is held in full. -/
theorem rewriteHeld_eq {sentence : List (Symbol α)} {rng : Rng}
    (h : (g.rewrite sentence rng).1.length ≤ maxLength) : g.rewriteHeld sentence rng = g.rewrite sentence rng := by
  unfold rewriteHeld
  rw [rewriteWithin_eq, if_pos h]; rfl

/-! ## Generations in a row -/

/-- The next generation is written from where the last one left the generator. -/
theorem grow_succ (n : Nat) (rng : Rng) :
    (g.grow (n + 1)).run rng = g.rewrite ((g.grow n).run rng).1 ((g.grow n).run rng).2 := rfl

/-- Growth under a limit, one generation further. -/
theorem growWithin_succ (limit done n : Nat) (rng : Rng) :
    g.growWithin limit done ((g.grow done).run rng).1 ((g.grow done).run rng).2 (n + 1) =
      if ((g.grow (done + 1)).run rng).1.length ≤ limit then
        g.growWithin limit (done + 1) ((g.grow (done + 1)).run rng).1 ((g.grow (done + 1)).run rng).2 n
      else .error (.sentenceTooLong limit (done + 1)) := by
  rw [growWithin, rewriteWithin_eq, ← grow_succ]
  by_cases h : ((g.grow (done + 1)).run rng).1.length ≤ limit
  · rw [if_pos h, if_pos h]; rfl
  · rw [if_neg h, if_neg h]

/-- As long as every generation fits, growth under the limit is free growth. -/
theorem growWithin_ok {limit : Nat} {rng : Rng} : ∀ (n done : Nat),
    (∀ k, done < k → k ≤ done + n → ((g.grow k).run rng).1.length ≤ limit) →
      g.growWithin limit done ((g.grow done).run rng).1 ((g.grow done).run rng).2 n =
        .ok ((g.grow (done + n)).run rng).1
  | 0, _, _ => rfl
  | n + 1, done, hfit => by
    rw [growWithin_succ, if_pos (hfit (done + 1) (by omega) (by omega))]
    have ih := growWithin_ok n (done + 1) fun k h1 h2 => hfit k (by omega) (by omega)
    rw [ih, show done + 1 + n = done + (n + 1) by omega]

/-- The first generation that does not fit is the one that growth under the limit is refused at. -/
theorem growWithin_error {limit k : Nat} {rng : Rng} (hlong : limit < ((g.grow k).run rng).1.length) :
    ∀ (n done : Nat), done < k → k ≤ done + n →
      (∀ j, done < j → j < k → ((g.grow j).run rng).1.length ≤ limit) →
        g.growWithin limit done ((g.grow done).run rng).1 ((g.grow done).run rng).2 n =
          .error (.sentenceTooLong limit k)
  | 0, done, h1, h2, _ => by omega
  | n + 1, done, h1, h2, hfit => by
    rw [growWithin_succ]
    rcases Nat.lt_or_eq_of_le (Nat.succ_le_of_lt h1) with h | h
    · rw [if_pos (hfit (done + 1) (by omega) h)]
      exact growWithin_error hlong n (done + 1) h (by omega) fun j h1 h2 => hfit j (by omega) h2
    · subst h
      exact if_neg (Nat.not_le.mpr hlong)

/-! ## The whole expansion -/

/-- The start is checked before any generation. -/
theorem expandWithin_eq_ite (limit n : Nat) (seed : String) :
    g.expandWithin limit n seed =
      if limit < (g.expand 0 seed).length then .error (.sentenceTooLong limit 0)
      else g.growWithin limit 0 ((g.grow 0).run (Rng.ofSeed seed)).1 ((g.grow 0).run (Rng.ofSeed seed)).2 n := rfl

/-- `expandWithin` is `expand` if no generation is too long. -/
theorem expandWithin_ok {limit n : Nat} {seed : String} (hfit : ∀ k ≤ n, (g.expand k seed).length ≤ limit) :
    g.expandWithin limit n seed = .ok (g.expand n seed) := by
  rw [expandWithin_eq_ite, if_neg (Nat.not_lt.mpr (hfit 0 (Nat.zero_le n)))]
  have h := growWithin_ok g n 0 fun k _ hk => hfit k (by omega)
  rw [h, Nat.zero_add]
  rfl

/-- `expandWithin` names the least generation that is too long. -/
theorem expandWithin_error {limit n k : Nat} {seed : String} (hk : k ≤ n)
    (hleast : IsLeast {k | limit < (g.expand k seed).length} k) :
    g.expandWithin limit n seed = .error (.sentenceTooLong limit k) := by
  obtain ⟨hlong, hfirst⟩ := hleast
  have hfit : ∀ j < k, (g.expand j seed).length ≤ limit := fun j hj =>
    Nat.not_lt.mp fun h => absurd (hfirst h) (by omega)
  rw [expandWithin_eq_ite]
  rcases Nat.eq_zero_or_pos k with rfl | hpos
  · exact if_pos hlong
  · rw [if_neg (Nat.not_lt.mpr (hfit 0 hpos))]
    exact growWithin_error g hlong n 0 hpos (by omega) fun j _ hj => hfit j hj

/-- What grows under a limit keeps it. -/
theorem length_le_of_growWithin {limit : Nat} {out : List (Symbol α)} : ∀ (n done : Nat) (sentence : List (Symbol α))
    (rng : Rng), g.growWithin limit done sentence rng n = .ok out → sentence.length ≤ limit → out.length ≤ limit
  | 0, _, _, _, h, hfit => by
    cases h
    exact hfit
  | n + 1, done, sentence, rng, h, _ => by
    rw [growWithin, rewriteWithin_eq] at h
    by_cases hfit : (g.rewrite sentence rng).1.length ≤ limit
    · rw [if_pos hfit] at h
      exact length_le_of_growWithin n (done + 1) _ _ h hfit
    · rw [if_neg hfit] at h
      cases h

/-- **A sentence grown under a limit keeps the limit.** -/
theorem length_le_of_expandWithin {limit n : Nat} {seed : String} {sentence : List (Symbol α)}
    (h : g.expandWithin limit n seed = .ok sentence) : sentence.length ≤ limit := by
  rw [expandWithin_eq_ite] at h
  by_cases hlong : limit < (g.expand 0 seed).length
  · rw [if_pos hlong] at h
    cases h
  · rw [if_neg hlong] at h
    exact length_le_of_growWithin g n 0 _ _ h (Nat.not_lt.mp hlong)

/-- What grows under a limit is what grows freely. -/
theorem eq_of_growWithin {limit : Nat} {rng : Rng} {out : List (Symbol α)} : ∀ n done : Nat,
    g.growWithin limit done ((g.grow done).run rng).1 ((g.grow done).run rng).2 n = .ok out →
      out = ((g.grow (done + n)).run rng).1
  | 0, _, h => by
    cases h
    rfl
  | n + 1, done, h => by
    rw [growWithin_succ] at h
    by_cases hfit : ((g.grow (done + 1)).run rng).1.length ≤ limit
    · rw [if_pos hfit] at h
      rw [eq_of_growWithin n (done + 1) h, show done + 1 + n = done + (n + 1) by omega]
    · rw [if_neg hfit] at h
      cases h

/-- **A sentence grown under a limit is the sentence of the seed.** -/
theorem eq_expand_of_expandWithin {limit n : Nat} {seed : String} {sentence : List (Symbol α)}
    (h : g.expandWithin limit n seed = .ok sentence) : sentence = g.expand n seed := by
  rw [expandWithin_eq_ite] at h
  by_cases hlong : limit < (g.expand 0 seed).length
  · rw [if_pos hlong] at h
    cases h
  · rw [if_neg hlong] at h
    have hgrown := eq_of_growWithin g n 0 h
    rwa [Nat.zero_add] at hgrown

/-- **Growth under a limit is free growth, or is refused at the first generation that is too long,** however short
later generations are. A generation that a list can hold is never lost. -/
theorem expandWithin_spec (limit n : Nat) (seed : String) (hheld : ∀ k ≤ n, (g.expand k seed).length ≤ maxLength) :
    ((∀ k ≤ n, (g.expand k seed).length ≤ limit) → g.expandWithin limit n seed = .ok (g.expand n seed)) ∧
    ((∃ k ≤ n, limit < (g.expand k seed).length) →
      ∃ k ≤ n, IsLeast {k | limit < (g.expand k seed).length} k ∧
        g.expandWithin limit n seed = .error (.sentenceTooLong limit k)) ∧
    ∀ k < n,
      let (sentence, rng) := (g.grow k).run (Rng.ofSeed seed)
      g.rewriteWithin maxLength sentence rng = some ((g.grow (k + 1)).run (Rng.ofSeed seed)) ∧
        g.rewriteHeld sentence rng = (g.grow (k + 1)).run (Rng.ofSeed seed) := by
  refine ⟨expandWithin_ok g, fun hlong => ?_, fun k hk => ?_⟩
  · obtain ⟨k, hk, hlong⟩ := hlong
    classical
    have hex : ∃ k, limit < (g.expand k seed).length := ⟨k, hlong⟩
    have hleast : IsLeast {k | limit < (g.expand k seed).length} (Nat.find hex) :=
      ⟨Nat.find_spec hex, fun j hj => Nat.find_min' hex hj⟩
    have hle : Nat.find hex ≤ n := (Nat.find_min' hex hlong).trans hk
    exact ⟨_, hle, hleast, expandWithin_error g hle hleast⟩
  · have hfit : ((g.grow (k + 1)).run (Rng.ofSeed seed)).1.length ≤ maxLength := hheld (k + 1) (by omega)
    rw [grow_succ] at hfit ⊢
    exact ⟨(rewriteWithin_eq g maxLength _ _).trans (if_pos hfit), rewriteHeld_eq g hfit⟩

/-- A grammar whose sentence grows from one symbol to three and then vanishes. -/
def vanishing : Grammar Float := ⟨"A", [⟨'A', 1, .literal "BBB"⟩, ⟨'B', 1, .literal ""⟩], .standard⟩

/-- Two symbols are exceeded by the first generation, though the second has none; three are enough. -/
theorem expandWithin_vanishing :
    (∀ k ≤ 2, (vanishing.expand k "oak").length ≤ maxLength) ∧
    vanishing.expandWithin 2 2 "oak" = .error (.sentenceTooLong 2 1) ∧
    vanishing.expandWithin 3 2 "oak" = .ok (vanishing.expand 2 "oak") := by
  have hheld : ∀ k ≤ 2, (vanishing.expand k "oak").length ≤ maxLength := by decide +kernel
  refine ⟨hheld, ?_, (expandWithin_spec vanishing 3 2 "oak" hheld).1 (by decide +kernel)⟩
  obtain ⟨k, hk, hleast, herr⟩ := (expandWithin_spec vanishing 2 2 "oak" hheld).2.1 ⟨1, by decide +kernel⟩
  have h1 : k ≤ 1 := hleast.2 (show 2 < (vanishing.expand 1 "oak").length by decide +kernel)
  have h0 : k ≠ 0 := by
    rintro rfl
    exact absurd hleast.1 (show ¬2 < (vanishing.expand 0 "oak").length by decide +kernel)
  rw [herr, show k = 1 by omega]

end Grammar
end Arbor
