import Arbor.Grammar
import Mathlib.Data.List.Basic
import Mathlib.Data.String.Basic

/-!
# The groups of a grammar

The characters with rules are listed once each, in increasing order (`Rule.pairwise_symbols`, `Rule.mem_symbols`), and
their groups are the rules of the grammar, cut up by character (`Grammar.partitioned`).
-/

namespace Arbor

variable {α : Type}

namespace Rule

/-! ## The characters with rules -/

theorem mem_insertSymbol {c d : Char} : ∀ {cs : List Char}, d ∈ insertSymbol c cs ↔ d = c ∨ d ∈ cs
  | [] => by simp [insertSymbol]
  | e :: cs => by
    unfold insertSymbol
    split
    · simp
    · split
      next h =>
        subst h
        simp
      next => rw [List.mem_cons, mem_insertSymbol, List.mem_cons, or_left_comm]

theorem pairwise_insertSymbol {c : Char} : ∀ {cs : List Char}, cs.Pairwise (· < ·) →
    (insertSymbol c cs).Pairwise (· < ·)
  | [], _ => List.pairwise_singleton _ _
  | d :: cs, h => by
    obtain ⟨hd, hcs⟩ := List.pairwise_cons.mp h
    unfold insertSymbol
    split
    next hlt => exact List.pairwise_cons.mpr ⟨List.forall_mem_cons.mpr ⟨hlt, fun e he => hlt.trans (hd e he)⟩, h⟩
    next hnlt =>
      split
      next => exact h
      next hne =>
        have hgt : d < c := lt_of_le_of_ne (not_lt.mp hnlt) (Ne.symm hne)
        refine List.pairwise_cons.mpr ⟨fun e he => ?_, pairwise_insertSymbol hcs⟩
        rcases mem_insertSymbol.mp he with rfl | he
        · exact hgt
        · exact hd e he

theorem mem_symbols {rules : List (Rule α)} {c : Char} : c ∈ symbols rules ↔ ∃ r ∈ rules, r.symbol = c := by
  unfold symbols
  induction rules with
  | nil => simp
  | cons r rules ih => rw [List.map_cons, List.foldr_cons, mem_insertSymbol, ih, List.exists_mem_cons_iff, eq_comm]

theorem pairwise_symbols (rules : List (Rule α)) : (symbols rules).Pairwise (· < ·) := by
  unfold symbols
  induction rules with
  | nil => exact List.Pairwise.nil
  | cons r rules ih => exact pairwise_insertSymbol ih

theorem nodup_symbols (rules : List (Rule α)) : (symbols rules).Nodup :=
  (pairwise_symbols rules).imp fun h => ne_of_lt h

theorem group_ne_nil_iff {rules : List (Rule α)} {c : Char} : group rules c ≠ [] ↔ c ∈ symbols rules := by
  rw [mem_symbols, group, ne_eq, List.filter_eq_nil_iff]
  simp

/-! ## The rules, cut up -/

/-- The groups of distinct characters hold the rules for any of these. -/
theorem perm_flatMap_group (rules : List (Rule α)) : ∀ {cs : List Char}, cs.Nodup →
    (cs.flatMap (group rules)).Perm (rules.filter fun r => decide (r.symbol ∈ cs))
  | [], _ => by simp
  | c :: cs, h => by
    obtain ⟨hc, hcs⟩ := List.nodup_cons.mp h
    -- the rules for `c :: cs`, those for `c` put first
    have hsplit := List.filter_append_perm (fun r : Rule α => r.symbol == c)
      (rules.filter fun r => decide (r.symbol ∈ c :: cs))
    have hfirst : (rules.filter fun r => decide (r.symbol ∈ c :: cs)).filter (fun r => r.symbol == c) =
        group rules c := by
      rw [List.filter_filter, group]
      refine List.filter_congr fun r _ => ?_
      by_cases hr : r.symbol = c <;> simp [hr]
    have hrest : (rules.filter fun r => decide (r.symbol ∈ c :: cs)).filter (fun r => !(r.symbol == c)) =
        rules.filter fun r => decide (r.symbol ∈ cs) := by
      rw [List.filter_filter]
      refine List.filter_congr fun r _ => ?_
      by_cases hr : r.symbol = c
      · simp [hr, hc]
      · simp [hr]
    rw [hfirst, hrest] at hsplit
    rw [List.flatMap_cons]
    exact ((perm_flatMap_group rules hcs).append_left _).trans hsplit

end Rule

namespace Grammar

/-- The groups of a grammar are its rules, cut up by character. -/
structure Partitioned (g : Grammar α) : Prop where
  /-- Every character has one group at most. -/
  distinct : (g.groups.map Prod.fst).Nodup
  /-- A group holds all rules for its character, and there is one for every character that has rules. -/
  groups : ∀ c rules, (c, rules) ∈ g.groups ↔ rules ≠ [] ∧ rules = g.rules.filter (·.symbol == c)
  /-- A group keeps the order of the rules. -/
  ordered : ∀ c rules, (c, rules) ∈ g.groups → rules.Sublist g.rules
  /-- Every rule is in one group. -/
  all : (g.groups.flatMap Prod.snd).Perm g.rules

/-- **The groups of a grammar are its rules, cut up by character.** -/
theorem partitioned (g : Grammar α) : g.Partitioned where
  distinct := by
    rw [groups, List.map_map]
    exact (List.map_id _).symm ▸ Rule.nodup_symbols g.rules
  groups c rules := by
    rw [groups, List.mem_map]
    constructor
    · rintro ⟨d, hd, heq⟩
      cases heq
      exact ⟨Rule.group_ne_nil_iff.mpr hd, rfl⟩
    · rintro ⟨hne, rfl⟩
      exact ⟨c, Rule.group_ne_nil_iff.mp hne, rfl⟩
  ordered c rules h := by
    obtain ⟨d, -, heq⟩ := List.mem_map.mp h
    cases heq
    exact List.filter_sublist
  all := by
    have hall : g.rules.filter (fun r => decide (r.symbol ∈ Rule.symbols g.rules)) = g.rules :=
      List.filter_eq_self.mpr fun r hr => decide_eq_true (Rule.mem_symbols.mpr ⟨r, hr, rfl⟩)
    have hperm := Rule.perm_flatMap_group g.rules (Rule.nodup_symbols g.rules)
    rw [hall] at hperm
    rw [groups, List.flatMap_map]
    exact hperm

end Grammar
end Arbor
