import Arbor.Proofs.Command
import Arbor.Sentence
import Mathlib.Data.List.Infix

/-!
# Brackets and depth

`bracketDepth` follows the number of open brackets through a text. Closing more than was opened leaves zero, so a
text is not described by its sum alone: `Balanced` also asks this of every beginning.

* From any depth, a balanced text ends where it started, and only a balanced text does (`balanced_iff`).
* Every reading of a text ends at its bracket depth (`Sentence.depth_read`).
* A word holds the bracket depth as long as no beginning of the text comes too deep for it (`toNat_wrappingDepth`).
-/

namespace Arbor

/-- The number of open brackets after a text that starts at a depth. -/
def bracketDepth : Nat → List Char → Nat
  | depth, [] => depth
  | depth, c :: cs => bracketDepth (if c = '[' then depth + 1 else if c = ']' then depth - 1 else depth) cs

/-- The number of open brackets after a text in a word of 64 bits, which opening wraps. -/
def wrappingDepth : UInt64 → List Char → UInt64
  | depth, [] => depth
  | depth, c :: cs =>
    wrappingDepth (if c = '[' then depth + 1 else if c = ']' then if depth = 0 then 0 else depth - 1 else depth) cs

/-- No beginning closes more brackets than it opens, and the whole closes all. -/
structure Balanced (cs : List Char) : Prop where
  opened : ∀ p, p <+: cs → p.count ']' ≤ p.count '['
  closed : cs.count ']' = cs.count '['

instance (cs : List Char) : Decidable (Balanced cs) :=
  decidable_of_iff ((∀ p ∈ cs.inits, p.count ']' ≤ p.count '[') ∧ cs.count ']' = cs.count '[')
    ⟨fun h => ⟨fun p hp => h.1 p ((List.mem_inits p cs).mpr hp), h.2⟩,
      fun h => ⟨fun p hp => h.opened p ((List.mem_inits p cs).mp hp), h.closed⟩⟩

/-! ## Depth along a text -/

theorem bracketDepth_cons (depth : Nat) (c : Char) (cs : List Char) :
    bracketDepth depth (c :: cs) = bracketDepth (bracketDepth depth [c]) cs := rfl

theorem bracketDepth_append (depth : Nat) (cs ds : List Char) :
    bracketDepth depth (cs ++ ds) = bracketDepth (bracketDepth depth cs) ds := by
  induction cs generalizing depth with
  | nil => rfl
  | cons c cs ih => rw [List.cons_append, bracketDepth_cons, ih, ← bracketDepth_cons]

/-- A command opens and closes what its character does. -/
theorem nest_ofChar (depth : Nat) (c : Char) : (Command.ofChar c).nest depth = bracketDepth depth [c] := by
  have hpush : Command.ofChar c = .push ↔ c = '[' := Command.ofChar_eq_iff rfl
  have hpop : Command.ofChar c = .pop ↔ c = ']' := Command.ofChar_eq_iff rfl
  by_cases h1 : c = '['
  · rw [hpush.mpr h1, h1]; rfl
  · by_cases h2 : c = ']'
    · rw [hpop.mpr h2, h2]; rfl
    · have hnest : (Command.ofChar c).nest depth = depth := by
        cases hc : Command.ofChar c with
        | push => exact absurd (hpush.mp hc) h1
        | pop => exact absurd (hpop.mp hc) h2
        | forward | turn | leaf | idle => rfl
      rw [hnest, bracketDepth, if_neg h1, if_neg h2]; rfl

/-- Brackets are the only characters that move the depth. -/
theorem bracketDepth_of_isBracket_eq_false {c : Char} (h : (Command.ofChar c).isBracket = false) (depth : Nat) :
    bracketDepth depth [c] = depth := by
  rw [← nest_ofChar]
  cases hc : Command.ofChar c with
  | push | pop => rw [hc] at h; cases h
  | forward | turn | leaf | idle => rfl

/-! ## Depth in a word -/

theorem wrappingDepth_cons (depth : UInt64) (c : Char) (cs : List Char) :
    wrappingDepth depth (c :: cs) = wrappingDepth (wrappingDepth depth [c]) cs := rfl

/-- A command opens and closes what its character does. -/
theorem nestWrapping_ofChar (depth : UInt64) (c : Char) :
    (Command.ofChar c).nestWrapping depth = wrappingDepth depth [c] := by
  have hpush : Command.ofChar c = .push ↔ c = '[' := Command.ofChar_eq_iff rfl
  have hpop : Command.ofChar c = .pop ↔ c = ']' := Command.ofChar_eq_iff rfl
  by_cases h1 : c = '['
  · rw [hpush.mpr h1, h1]; rfl
  · by_cases h2 : c = ']'
    · rw [hpop.mpr h2, h2]; rfl
    · have hnest : (Command.ofChar c).nestWrapping depth = depth := by
        cases hc : Command.ofChar c with
        | push => exact absurd (hpush.mp hc) h1
        | pop => exact absurd (hpop.mp hc) h2
        | forward | turn | leaf | idle => rfl
      rw [hnest, wrappingDepth, if_neg h1, if_neg h2]; rfl

theorem toNat_wrappingDepth_singleton {depth : UInt64} {c : Char} (h : bracketDepth depth.toNat [c] < UInt64.size) :
    (wrappingDepth depth [c]).toNat = bracketDepth depth.toNat [c] := by
  simp only [wrappingDepth, bracketDepth] at h ⊢
  by_cases h1 : c = '['
  · rw [if_pos h1] at h ⊢
    rw [if_pos h1, UInt64.toNat_add, UInt64.toNat_one, Nat.mod_eq_of_lt h]
  · rw [if_neg h1, if_neg h1]
    by_cases h2 : c = ']'
    · rw [if_pos h2, if_pos h2]
      by_cases hzero : depth = 0
      · rw [if_pos hzero, hzero]
        rfl
      · have hone : (1 : UInt64) ≤ depth := by
          rw [UInt64.le_iff_toNat_le, UInt64.toNat_one]
          exact Nat.pos_of_ne_zero fun hnat => hzero (UInt64.toNat_inj.mp hnat)
        rw [if_neg hzero, UInt64.toNat_sub_of_le _ _ hone, UInt64.toNat_one]
    · rw [if_neg h2, if_neg h2]

/-- **A word holds the depth as long as it has room for it.** -/
theorem toNat_wrappingDepth {cs : List Char} : ∀ {depth : UInt64},
    (∀ p, p <+: cs → bracketDepth depth.toNat p < UInt64.size) →
      (wrappingDepth depth cs).toNat = bracketDepth depth.toNat cs := by
  induction cs with
  | nil => exact fun _ => rfl
  | cons c cs ih =>
    intro depth h
    have hfirst := toNat_wrappingDepth_singleton (h [c] ⟨cs, rfl⟩)
    rw [wrappingDepth_cons, bracketDepth_cons, ← hfirst]
    refine ih fun p hp => ?_
    rw [hfirst, ← bracketDepth_cons]
    exact h (c :: p) (List.cons_prefix_cons.mpr ⟨rfl, hp⟩)

/-! ## Balanced texts -/

/-- As long as nothing is closed that was not opened, the depth is a difference. -/
theorem bracketDepth_add_count (depth : Nat) (cs : List Char)
    (h : ∀ p, p <+: cs → p.count ']' ≤ p.count '[') :
    bracketDepth depth cs + cs.count ']' = depth + cs.count '[' := by
  -- from the end, since a beginning of `cs` is a beginning of `cs ++ [c]`
  induction cs using List.reverseRecOn with
  | nil => rfl
  | append_singleton cs c ih =>
    have ih := ih fun p hp => h p (hp.trans (List.prefix_append cs [c]))
    have hlast := h (cs ++ [c]) (List.prefix_refl _)
    rw [bracketDepth_append]
    simp only [List.count_append, bracketDepth, List.count_singleton, beq_iff_eq] at hlast ⊢
    by_cases h1 : c = '['
    · subst h1
      simp at hlast ⊢
      omega
    · by_cases h2 : c = ']'
      · subst h2
        simp at hlast ⊢
        omega
      · rw [if_neg h1, if_neg h2, if_neg h1, if_neg h2]
        omega

/-- **From any depth, a balanced text ends where it started.** -/
theorem Balanced.bracketDepth {cs : List Char} (h : Balanced cs) (depth : Nat) : bracketDepth depth cs = depth := by
  have hcount := bracketDepth_add_count depth cs h.opened
  have hclosed := h.closed
  omega

/-- From deep enough, nothing is closed in vain. -/
theorem bracketDepth_add_count_of_le {cs : List Char} : ∀ {depth : Nat}, cs.count ']' ≤ depth →
    bracketDepth depth cs + cs.count ']' = depth + cs.count '[' := by
  induction cs with
  | nil => exact fun _ => rfl
  | cons c cs ih =>
    intro depth h
    rw [bracketDepth]
    simp only [List.count_cons, beq_iff_eq] at h ⊢
    by_cases h1 : c = '['
    · subst h1
      have := @ih (depth + 1)
      simp at h ⊢
      omega
    · by_cases h2 : c = ']'
      · subst h2
        have := @ih (depth - 1)
        simp at h ⊢
        omega
      · rw [if_neg h1, if_neg h2, if_neg h1, if_neg h2]
        rw [if_neg h2] at h
        exact ih h

/-- What is closed in vain leaves the depth above the difference. -/
theorem add_count_le_bracketDepth (cs : List Char) : ∀ depth : Nat,
    depth + cs.count '[' ≤ bracketDepth depth cs + cs.count ']' := by
  induction cs with
  | nil => exact fun depth => Nat.le_refl depth
  | cons c cs ih =>
    intro depth
    rw [bracketDepth]
    simp only [List.count_cons, beq_iff_eq]
    by_cases h1 : c = '['
    · subst h1
      have := ih (depth + 1)
      simp
      omega
    · by_cases h2 : c = ']'
      · subst h2
        have := ih (depth - 1)
        simp
        omega
      · rw [if_neg h1, if_neg h2, if_neg h1, if_neg h2]
        exact ih depth

/-- A text comes no deeper than it opens. -/
theorem bracketDepth_le_add_count (cs : List Char) : ∀ depth : Nat, bracketDepth depth cs ≤ depth + cs.count '[' := by
  induction cs with
  | nil => exact fun depth => Nat.le_refl depth
  | cons c cs ih =>
    intro depth
    rw [bracketDepth, List.count_cons]
    by_cases h1 : c = '['
    · have := ih (depth + 1)
      simp only [h1, if_pos, beq_self_eq_true]
      omega
    · by_cases h2 : c = ']'
      · have := ih (depth - 1)
        rw [if_neg h1, if_pos h2]
        omega
      · have := ih depth
        rw [if_neg h1, if_neg h2]
        omega

/-- **A text is balanced exactly if it ends where it started, from any depth.** -/
theorem balanced_iff {cs : List Char} : Balanced cs ↔ ∀ depth, bracketDepth depth cs = depth := by
  refine ⟨Balanced.bracketDepth, fun h => ?_⟩
  have hclosed : cs.count ']' = cs.count '[' := by
    have hdeep := bracketDepth_add_count_of_le (List.count_le_length (a := ']') (l := cs))
    rw [h] at hdeep
    exact Nat.add_left_cancel hdeep
  refine ⟨fun p hp => ?_, hclosed⟩
  -- the rest of the text comes down to zero, so it closes at least what it opens
  obtain ⟨q, rfl⟩ := hp
  have hrest := add_count_le_bracketDepth q (bracketDepth 0 p)
  rw [← bracketDepth_append, h] at hrest
  rw [List.count_append, List.count_append] at hclosed
  omega

theorem Balanced.nil : Balanced [] := balanced_iff.mpr fun _ => rfl

theorem Balanced.append {cs ds : List Char} (hc : Balanced cs) (hd : Balanced ds) : Balanced (cs ++ ds) :=
  balanced_iff.mpr fun depth => by rw [bracketDepth_append, hc.bracketDepth, hd.bracketDepth]

/-! ## Depth along a reading -/

variable {α : Type} [Scalar α]

/-- **A reading ends at the bracket depth of its text,** whatever it draws. -/
theorem Sentence.depth_read (habit : Habit α) (cursor : Cursor) (cs : List Char) :
    ((read habit).run cursor cs).2.depth = bracketDepth cursor.depth cs := by
  induction cs generalizing cursor with
  | nil => rfl
  | cons c cs ih =>
    rw [Transducer.run_cons, ih, bracketDepth_cons, ← nest_ofChar]
    rfl

end Arbor
