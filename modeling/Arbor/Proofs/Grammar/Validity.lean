import Arbor.Plan
import Arbor.Proofs.Command
import Arbor.Proofs.Double.Positive
import Arbor.Proofs.Grammar.Groups
import Arbor.Proofs.Habit
import Arbor.Proofs.Plan.Check
import Mathlib.Order.Bounds.Basic

/-!
# Valid grammars

`Grammar.Valid` says what a grammar of doubles has to be, and `Grammar.Refused` which fault a grammar that is not gets:
the first one, in the order start, habit, rules, totals. `Grammar.ofRules` makes exactly the valid grammars and names
exactly these faults (`Grammar.ofRules_eq_ok_iff_valid`, `Grammar.ofRules_eq_error_iff`). No total has to be compared
with zero, because positive odds never add up to zero (`Rule.checkTotal_eq`).

A grammar stays valid when its habit is exchanged for another one that is accepted (`Grammar.Built.valid`), and a plan
that has been accepted stays so with a valid grammar (`Plan.check_withGrammar`).
-/

namespace Arbor

open scoped Scalar

/-! ## Rules -/

namespace Rule

/-- What a rule has to be. -/
structure Valid (r : Rule Float) : Prop where
  odds : r.odds.isFinite = true ∧ 0 < r.odds
  symbol : r.symbol ≠ '[' ∧ r.symbol ≠ ']'

/-- The fault of a rule that is not valid: odds come before brackets. -/
inductive Refused (r : Rule Float) : GrammarFault Float → Prop where
  | odds (fails : ¬(r.odds.isFinite = true ∧ 0 < r.odds)) : Refused r (.odds r.symbol r.odds)
  | bracket (odds : r.odds.isFinite = true ∧ 0 < r.odds) (fails : ¬(r.symbol ≠ '[' ∧ r.symbol ≠ ']')) :
    Refused r (.bracket r.symbol)

theorem isBracket_iff {c : Char} : (Command.ofChar c).isBracket = true ↔ c = '[' ∨ c = ']' := by
  have hpush : Command.ofChar c = .push ↔ c = '[' := Command.ofChar_eq_iff rfl
  have hpop : Command.ofChar c = .pop ↔ c = ']' := Command.ofChar_eq_iff rfl
  rw [← hpush, ← hpop]
  cases Command.ofChar c <;> simp [Command.isBracket]

theorem check_eq (r : Rule Float) : r.check =
    if r.odds.isFinite = true ∧ 0 < r.odds then
      if r.symbol ≠ '[' ∧ r.symbol ≠ ']' then .ok () else .error (.bracket r.symbol)
    else .error (.odds r.symbol r.odds) := by
  have hodds : Scalar.isFinite r.odds = false ∨ r.odds ≤ 0 ↔ ¬(r.odds.isFinite = true ∧ 0 < r.odds) := by
    rw [not_and_or, Bool.not_eq_true]
    by_cases hfinite : r.odds.isFinite = true
    · rw [← Double.not_le_iff hfinite (by decide), not_not]
      rfl
    · exact iff_of_true (Or.inl (Bool.not_eq_true _ ▸ hfinite)) (Or.inl (Bool.not_eq_true _ ▸ hfinite))
  have hbracket : (Command.ofChar r.symbol).isBracket = true ↔ ¬(r.symbol ≠ '[' ∧ r.symbol ≠ ']') := by
    rw [isBracket_iff, not_and_or, not_not, not_not]
  unfold check
  simp only [hodds, hbracket, ite_not]

variable {r : Rule Float}

theorem check_eq_ok_iff : r.check = .ok () ↔ r.Valid := by
  rw [check_eq]
  split
  next h =>
    rw [Except.ite_eq_ok_iff]
    exact ⟨fun hsymbol => ⟨h, hsymbol⟩, Valid.symbol⟩
  next h => exact iff_of_false nofun fun hr => h hr.odds

theorem check_eq_error_iff {fault : GrammarFault Float} : r.check = .error fault ↔ r.Refused fault := by
  rw [check_eq]
  split
  next h =>
    rw [Except.ite_eq_error_iff]
    constructor
    · rintro ⟨hfails, rfl⟩
      exact .bracket h hfails
    · rintro (hfails | ⟨-, hfails⟩)
      · exact absurd h hfails
      · exact ⟨hfails, rfl⟩
  next h =>
    constructor
    · rintro ⟨⟩
      exact .odds h
    · rintro (- | ⟨hodds, -⟩)
      · rfl
      · exact absurd hodds h

/-! ## Totals -/

theorem totalOdds_of_notMem {rules : List (Rule Float)} {c : Char} (h : c ∉ symbols rules) :
    totalOdds rules c = 0 := by
  rw [totalOdds, not_not.mp (mt group_ne_nil_iff.mp h)]
  rfl

/-- The total of a character with rules is above zero, so that only its being finite is left to be checked. -/
theorem checkTotal_eq {rules : List (Rule Float)} (hrules : ∀ r ∈ rules, r.Valid) {c : Char} (hc : c ∈ symbols rules) :
    checkTotal rules c =
      if (totalOdds rules c).isFinite = true then .ok () else .error (.totalOdds c (totalOdds rules c)) := by
  have hpos : 0 < totalOdds rules c := by
    refine Double.sum_pos (by simpa using group_ne_nil_iff.mpr hc) fun x hx => ?_
    obtain ⟨r, hr, rfl⟩ := List.mem_map.mp hx
    exact (hrules r (List.mem_filter.mp hr).1).odds.2
  have hfails : Scalar.isFinite (totalOdds rules c) = false ∨ totalOdds rules c ≤ 0 ↔
      ¬(totalOdds rules c).isFinite = true := by
    rw [or_iff_left (Double.not_le_zero hpos), Bool.not_eq_true]
    rfl
  unfold checkTotal
  simp only [hfails, ite_not]

end Rule

/-! ## Grammars -/

namespace Grammar

/-- What a grammar has to be. -/
structure Valid (g : Grammar Float) : Prop where
  start : g.start ≠ ""
  habit : g.habit.Valid
  rules : ∀ r ∈ g.rules, r.Valid
  totals : ∀ c, (Rule.totalOdds g.rules c).isFinite = true

/-- The fault of a grammar that is not valid: the first one. -/
inductive Refused (start : String) (rules : List (Rule Float)) (habit : Habit Float) : GrammarFault Float → Prop where
  | start (fails : start = "") : Refused start rules habit .emptyStart
  | habit (hstart : start ≠ "") {fault : SettingFault Float} (fails : habit.Refused fault) :
    Refused start rules habit (.setting fault)
  | rule (hstart : start ≠ "") (hhabit : habit.Valid) {before after : List (Rule Float)} {r : Rule Float}
    (row : rules = before ++ r :: after) (first : ∀ q ∈ before, q.Valid) {fault : GrammarFault Float}
    (fails : r.Refused fault) : Refused start rules habit fault
  | total (hstart : start ≠ "") (hhabit : habit.Valid) (hrules : ∀ r ∈ rules, r.Valid) {c : Char}
    (fails : IsLeast {c | ¬(Rule.totalOdds rules c).isFinite = true} c) :
    Refused start rules habit (.totalOdds c (Rule.totalOdds rules c))

variable {start : String} {rules : List (Rule Float)} {habit : Habit Float}

theorem isEmpty_eq_false_iff : start.isEmpty = false ↔ start ≠ "" := by
  rw [← Bool.not_eq_true, String.isEmpty_iff]

/-- The totals of valid rules are accepted if they are finite. -/
theorem totals_eq_ok_iff (hrules : ∀ r ∈ rules, r.Valid) :
    (∀ c ∈ Rule.symbols rules, Rule.checkTotal rules c = .ok ()) ↔
      ∀ c, (Rule.totalOdds rules c).isFinite = true := by
  constructor
  · intro h c
    by_cases hc : c ∈ Rule.symbols rules
    · have := h c hc
      rwa [Rule.checkTotal_eq hrules hc, Except.ite_eq_ok_iff] at this
    · rw [Rule.totalOdds_of_notMem hc]
      decide
  · intro h c hc
    rw [Rule.checkTotal_eq hrules hc]
    exact if_pos (h c)

/-- The totals of valid rules are refused for the least character whose total is not finite. -/
theorem totals_eq_error_iff (hrules : ∀ r ∈ rules, r.Valid) {fault : GrammarFault Float} :
    (Rule.symbols rules).forM (Rule.checkTotal rules) = .error fault ↔
      ∃ c, IsLeast {c | ¬(Rule.totalOdds rules c).isFinite = true} c ∧
        fault = .totalOdds c (Rule.totalOdds rules c) := by
  rw [Except.forM_eq_error_iff]
  constructor
  · rintro ⟨before, c, after, hrow, hbefore, hfails⟩
    have hmem : ∀ d ∈ before ++ c :: after, d ∈ Rule.symbols rules := fun d hd => hrow ▸ hd
    have hsorted := hrow ▸ Rule.pairwise_symbols rules
    obtain ⟨-, hsorted, -⟩ := List.pairwise_append.mp hsorted
    rw [Rule.checkTotal_eq hrules (hmem c (by simp)), Except.ite_eq_error_iff] at hfails
    obtain ⟨hfails, rfl⟩ := hfails
    refine ⟨c, ⟨hfails, fun d hd => ?_⟩, rfl⟩
    have hd' : d ∈ Rule.symbols rules := by
      by_contra hnot
      exact hd (by rw [Rule.totalOdds_of_notMem hnot]; decide)
    rw [hrow] at hd'
    rcases List.mem_append.mp hd' with h | h
    · have := hbefore d h
      rw [Rule.checkTotal_eq hrules (hmem d (by simp [h])), Except.ite_eq_ok_iff] at this
      exact absurd this hd
    · rcases List.mem_cons.mp h with rfl | h
      · exact le_refl d
      · exact le_of_lt ((List.pairwise_cons.mp hsorted).1 d h)
  · rintro ⟨c, ⟨hfails, hleast⟩, rfl⟩
    have hc : c ∈ Rule.symbols rules := by
      by_contra hnot
      exact hfails (by rw [Rule.totalOdds_of_notMem hnot]; decide)
    obtain ⟨before, after, hrow⟩ := List.append_of_mem hc
    have hsorted := hrow ▸ Rule.pairwise_symbols rules
    obtain ⟨-, -, hbelow⟩ := List.pairwise_append.mp hsorted
    refine ⟨before, c, after, hrow, fun d hd => ?_, ?_⟩
    · have hd' : d ∈ Rule.symbols rules := hrow ▸ List.mem_append_left _ hd
      rw [Rule.checkTotal_eq hrules hd', Except.ite_eq_ok_iff]
      by_contra hnot
      exact absurd (hleast hnot) (not_le.mpr (hbelow d hd c List.mem_cons_self))
    · rw [Rule.checkTotal_eq hrules hc]
      exact if_neg hfails

/-- **A grammar is made if it is valid.** -/
theorem ofRules_eq_ok_iff_valid {g : Grammar Float} :
    ofRules start rules habit = .ok g ↔ g = ⟨start, rules, habit⟩ ∧ g.Valid := by
  rw [ofRules_eq_ok_iff, isEmpty_eq_false_iff, Habit.check_eq_ok_iff]
  simp only [Rule.check_eq_ok_iff]
  constructor
  · rintro ⟨hstart, hhabit, hrules, htotals, rfl⟩
    exact ⟨rfl, hstart, hhabit, hrules, (totals_eq_ok_iff hrules).mp htotals⟩
  · rintro ⟨rfl, hstart, hhabit, hrules, htotals⟩
    exact ⟨hstart, hhabit, hrules, (totals_eq_ok_iff hrules).mpr htotals, rfl⟩

/-- **A grammar that is not valid is refused for its first fault.** -/
theorem ofRules_eq_error_iff {fault : GrammarFault Float} :
    ofRules start rules habit = .error fault ↔ Refused start rules habit fault := by
  unfold ofRules
  simp only [Except.guard_eq_error, Except.check_bind_eq_error, Except.mapError_eq_error, Except.mapError_eq_ok,
    Habit.check_eq_ok_iff, Habit.check_eq_error_iff, Except.forM_eq_ok_iff, Rule.check_eq_ok_iff]
  constructor
  · rintro (⟨hstart, rfl⟩ | ⟨hstart, ⟨fault, hfails, rfl⟩ | ⟨hhabit, hrow | ⟨hrules, htotals | ⟨-, h⟩⟩⟩⟩)
    · exact .start (String.isEmpty_iff.mp hstart)
    · exact .habit (mt String.isEmpty_iff.mpr hstart) hfails
    · obtain ⟨before, r, after, rfl, hbefore, hfails⟩ := Except.forM_eq_error_iff.mp hrow
      exact .rule (mt String.isEmpty_iff.mpr hstart) hhabit rfl (fun q hq => Rule.check_eq_ok_iff.mp (hbefore q hq))
        (Rule.check_eq_error_iff.mp hfails)
    · obtain ⟨c, hfails, rfl⟩ := (totals_eq_error_iff hrules).mp htotals
      exact .total (mt String.isEmpty_iff.mpr hstart) hhabit hrules hfails
    · cases h
  · rintro (hstart | ⟨hstart, hfails⟩ | ⟨hstart, hhabit, hrow, hbefore, hfails⟩ | ⟨hstart, hhabit, hrules, hfails⟩)
    · exact Or.inl ⟨String.isEmpty_iff.mpr hstart, rfl⟩
    · exact Or.inr ⟨mt String.isEmpty_iff.mp hstart, Or.inl ⟨_, hfails, rfl⟩⟩
    · refine Or.inr ⟨mt String.isEmpty_iff.mp hstart, Or.inr ⟨hhabit, Or.inl ?_⟩⟩
      exact Except.forM_eq_error_iff.mpr ⟨_, _, _, hrow, fun q hq => Rule.check_eq_ok_iff.mpr (hbefore q hq),
        Rule.check_eq_error_iff.mpr hfails⟩
    · refine Or.inr ⟨mt String.isEmpty_iff.mp hstart, Or.inr ⟨hhabit, Or.inr ⟨hrules, Or.inl ?_⟩⟩⟩
      exact (totals_eq_error_iff hrules).mpr ⟨_, hfails, rfl⟩

/-! ## Grammars that are built -/

/-- A grammar made from its rules, whose habit has been exchanged any number of times. -/
inductive Built : Grammar Float → Prop where
  | ofRules {start : String} {rules : List (Rule Float)} {habit : Habit Float} {g : Grammar Float}
    (made : Grammar.ofRules start rules habit = .ok g) : Built g
  | withHabit {g g' : Grammar Float} {habit : Habit Float} (built : Built g) (made : g.withHabit habit = .ok g') :
    Built g'

theorem withHabit_eq_ok_iff {g g' : Grammar Float} :
    g.withHabit habit = .ok g' ↔ habit.Valid ∧ g' = { g with habit := habit } := by
  unfold withHabit
  simp only [Except.check_bind_eq_ok, Except.mapError_eq_ok, Habit.check_eq_ok_iff]
  exact and_congr_right fun _ => ⟨by rintro ⟨⟩; rfl, by rintro rfl; rfl⟩

/-- **Every grammar that is built is valid.** -/
theorem Built.valid {g : Grammar Float} (h : g.Built) : g.Valid := by
  induction h with
  | ofRules made => exact (ofRules_eq_ok_iff_valid.mp made).2
  | withHabit _ made ih =>
    obtain ⟨hhabit, rfl⟩ := withHabit_eq_ok_iff.mp made
    exact { ih with habit := hhabit }

end Grammar

/-! ## Plans -/

namespace Plan

/-- The settings of a plan are accepted if each of them is. -/
theorem checkSettings_eq_ok_iff {p : Plan Float} : p.checkSettings = .ok () ↔
    (∀ setting ∈ p.nonNegatives, setting.2.isFinite = true ∧ 0 ≤ setting.2) ∧
    (∀ setting ∈ p.finites, setting.2.isFinite = true) ∧
    Setting.atMostOne "leaf_instances.size_variation" p.scatter.sizeVariation = .ok () := by
  unfold checkSettings
  simp only [Except.check_bind_eq_ok, Except.forM_eq_ok_iff, Setting.nonNegative_eq, Setting.finite,
    Except.ite_eq_ok_iff]
  rfl

/-- **An accepted plan stays accepted with a valid grammar:** the radii that its walk takes over have been checked. -/
theorem check_withGrammar {p : Plan Float} (hp : p.check = .ok ()) {g : Grammar Float} (hg : g.Valid) :
    (p.withGrammar g).check = .ok () := by
  obtain ⟨hiterations, hradial, hleaf, hsettings, hcolor⟩ := check_eq_ok_iff.mp hp
  obtain ⟨hnonNegative, hfinite, hvariation⟩ := checkSettings_eq_ok_iff.mp hsettings
  have hradius := hg.habit.nonNegative ("base_radius", g.habit.baseRadius) (by simp [Habit.nonNegatives])
  have hfalloff := hg.habit.nonNegative ("radius_falloff", g.habit.radiusFalloff) (by simp [Habit.nonNegatives])
  refine check_eq_ok_iff.mpr ⟨hiterations, hradial, hleaf, checkSettings_eq_ok_iff.mpr ⟨?_, hfinite, hvariation⟩, hcolor⟩
  unfold nonNegatives at hnonNegative ⊢
  simp only [List.forall_mem_cons] at hnonNegative ⊢
  obtain ⟨-, -, hothers⟩ := hnonNegative
  exact ⟨hradius, hfalloff, hothers⟩

end Plan

namespace Grammar

/-- **Validity is what is checked, and it lasts.** A grammar is made exactly if it is valid, and is refused for its first
fault otherwise. Every grammar that is built is valid, its groups are its rules, cut up by character, and it makes no
plan unacceptable. -/
theorem validity_lasts :
    (∀ (start : String) (rules : List (Rule Float)) (habit : Habit Float),
      (∀ g, ofRules start rules habit = .ok g ↔ g = ⟨start, rules, habit⟩ ∧ g.Valid) ∧
      ∀ fault, ofRules start rules habit = .error fault ↔ Refused start rules habit fault) ∧
    ∀ g : Grammar Float, g.Built → g.Valid ∧ g.Partitioned ∧
      ∀ p : Plan Float, p.check = .ok () → (p.withGrammar g).check = .ok () := by
  refine ⟨fun start rules habit => ⟨fun g => ofRules_eq_ok_iff_valid, fun fault => ofRules_eq_error_iff⟩, ?_⟩
  intro g hg
  exact ⟨hg.valid, g.partitioned, fun p hp => Plan.check_withGrammar hp hg.valid⟩

/-- Two rules for steps and one for buds, and a habit taken over afterwards that leaves everything to chance. -/
theorem validity_lasts_forked :
    let rules : List (Rule Float) := [⟨'F', 0.9, .literal "FF"⟩, ⟨'X', 1.0, .literal "[&FL]"⟩, ⟨'F', 0.1, .literal "F"⟩]
    let g : Grammar Float := ⟨"FX", rules, .standard⟩
    let wild : Habit Float := { Habit.standard with baseRadius := 0.0, variability := 1.0 }
    let p := Plan.ofGrammar g 12
    ofRules "FX" rules .standard = .ok g ∧ g.withHabit wild = .ok { g with habit := wild } ∧
      Built { g with habit := wild } ∧ Valid { g with habit := wild } ∧ Partitioned { g with habit := wild } ∧
      p.check = .ok () ∧ (p.withGrammar { g with habit := wild }).check = .ok () := by
  intro rules g wild p
  have hmade : ofRules "FX" rules .standard = .ok g := ofRules_eq_ok_of_toBool (by decide +kernel)
  have hwild : wild.check = .ok () := Except.eq_ok_of_toBool (by decide +kernel)
  have hexchanged : g.withHabit wild = .ok { g with habit := wild } :=
    withHabit_eq_ok_iff.mpr ⟨Habit.check_eq_ok_iff.mp hwild, rfl⟩
  have hbuilt : Built { g with habit := wild } := .withHabit (.ofRules hmade) hexchanged
  have hplan : p.check = .ok () := Except.eq_ok_of_toBool (by decide +kernel)
  obtain ⟨hvalid, hpartitioned, hcheck⟩ := validity_lasts.2 _ hbuilt
  exact ⟨hmade, hexchanged, hbuilt, hvalid, hpartitioned, hplan, hcheck p hplan⟩

end Grammar

end Arbor
