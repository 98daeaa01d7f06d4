import Arbor.Preset
import Arbor.Proofs.Growth.Balance
import Arbor.Proofs.Growth.Bound
import Arbor.Proofs.Plan.Check

/-!
# Ready-made plans for every seed

The seed of a ready-made plan decides which rules are taken and, for the fern, how many leaflets there are and which of
them go on growing. None of it can make the plan fail (`Preset.every_seed_grows`): the plan is accepted, its grammar is
balanced, and whatever takes the place of a character is part of one text that keeps the sentence short enough
(`Plan.Hardy`). For literal rules both are read off their texts (`Rule.suits_spec`); a frond is balanced leaflet by
leaflet, and is part of the largest frond (`Preset.frond_always`).
-/

namespace Arbor

/-! ## Plans that no seed can make fail -/

/-- An accepted plan with a balanced grammar whose sentences have at most `bound` symbols. -/
structure Plan.Hardy (p : Plan Float) (bound : Nat) : Prop where
  check : p.check = .ok ()
  paired : p.grammar.Paired
  bounded : ∃ texts, p.grammar.Covered texts ∧ weigh (largest texts p.iterations) p.grammar.start.toList ≤ bound

namespace Plan.Hardy

variable {p : Plan Float} {bound : Nat}

theorem length_grow (hp : p.Hardy bound) (rng : Rng) {m : Nat} (hm : m ≤ p.iterations) :
    ((p.grammar.grow m).run rng).1.length ≤ bound := by
  obtain ⟨texts, hcovered, hweight⟩ := hp.bounded
  exact Nat.le_trans (hcovered.length_grow rng hm) hweight

/-- With every seed the sentence keeps the bound, and if the bound keeps the limit, it is the sentence of the plan. -/
theorem sentence (hp : p.Hardy bound) (hbound : bound ≤ maxSymbols) (seed : String) :
    Plan.sentence { p with seed := seed } = .ok (p.grammar.expand p.iterations seed) := by
  refine sentence_eq_ok_iff.mpr ⟨hp.check, Grammar.expandWithin_ok p.grammar fun k hk => ?_⟩
  exact Nat.le_trans (hp.length_grow (Rng.ofSeed seed) hk) hbound

end Plan.Hardy

/-! ## Literal rules -/

/-- The rule puts a balanced text that is part of the text of its character. -/
def Rule.suits {α : Type} (texts : Char → Option (List Char)) (r : Rule α) : Bool :=
  match r.produce with
  | .literal text => decide (Balanced text.toList) && (texts r.symbol).any fun whole => text.toList.isSublist whole
  | .generator _ => false

theorem Rule.suits_spec {α : Type} [Scalar α] {texts : Char → Option (List Char)} {r : Rule α} (h : r.suits texts) :
    r.produce.Paired ∧ ∃ whole, texts r.symbol = some whole ∧ ∀ habit depth s,
      (r.produce.apply habit depth s).Always fun out => (out.map Symbol.tag).Sublist whole := by
  unfold Rule.suits at h
  cases hproduce : r.produce with
  | generator make => rw [hproduce] at h; cases h
  | literal text =>
    rw [hproduce, Bool.and_eq_true, decide_eq_true_iff, Option.any_eq_true] at h
    obtain ⟨hbalanced, whole, hwhole, hsublist⟩ := h
    refine ⟨hbalanced, whole, hwhole, fun habit depth s rng => ?_⟩
    have htags : ((Production.literal text).apply habit depth s).run rng |>.1.map Symbol.tag = text.toList :=
      Sentence.tags_parse habit depth text rng
    show List.Sublist _ whole
    rw [htags]
    exact List.isSublist_iff_sublist.mp hsublist

/-- A grammar of literal rules is read off its texts. -/
theorem Plan.Hardy.of_suits {p : Plan Float} {bound : Nat} (texts : Char → Option (List Char))
    (check : p.check.toBool = true) (start : Balanced p.grammar.start.toList)
    (rules : p.grammar.rules.all (Rule.suits texts) = true)
    (weight : weigh (largest texts p.iterations) p.grammar.start.toList ≤ bound) : p.Hardy bound where
  check := Except.eq_ok_of_toBool check
  paired := ⟨start, fun r hr => (Rule.suits_spec (List.all_eq_true.mp rules r hr)).1⟩
  bounded := by
    refine ⟨texts, fun r hr => ?_, weight⟩
    obtain ⟨-, whole, hwhole, halways⟩ := Rule.suits_spec (List.all_eq_true.mp rules r hr)
    exact ⟨whole, hwhole, halways p.grammar.habit⟩

/-! ## Fronds -/

theorem create_always {α : Type} [Scalar α] (habit : Habit α) (depth : Nat) (c : Char) :
    (Symbol.create habit depth c).Always fun s => s.tag = c := tag_create habit depth c

namespace Preset

/-- The characters of leaflet `i` if it goes on growing. -/
def blade (i : Nat) : List Char := ['[', if i % 2 = 0 then '+' else '-', 'F', 'X', 'L', ']', '/']

/-- The characters of leaflets that all go on growing, from number `i` on. -/
def blades : (i count : Nat) → List Char
  | _, 0 => []
  | i, count + 1 => blade i ++ blades (i + 1) count

/-- The characters of the largest frond. -/
def largestFrond : List Char := ['F', '&'] ++ blades 0 4 ++ ['X']

variable (habit : Habit Float) (depth : Nat)

theorem leaflet_always (i : Nat) : (leaflet habit depth i).Always fun out =>
    Balanced (out.map Symbol.tag) ∧ (out.map Symbol.tag).Sublist (blade i) := by
  refine (create_always habit (depth + 1) _).bind fun turn hturn => ?_
  refine (create_always habit (depth + 1) 'F').bind fun step hstep => ?_
  refine (Draw.always_true _).bind fun grows _ => ?_
  refine (create_always habit depth '/').bind fun roll hroll => .pure ?_
  unfold blade
  cases grows with
  | true =>
    show Balanced ['[', turn.tag, step.tag, 'X', 'L', ']', roll.tag] ∧
      List.Sublist ['[', turn.tag, step.tag, 'X', 'L', ']', roll.tag] _
    rw [hturn, hstep, hroll]
    split
    all_goals decide
  | false =>
    show Balanced ['[', turn.tag, step.tag, 'L', ']', roll.tag] ∧
      List.Sublist ['[', turn.tag, step.tag, 'L', ']', roll.tag] _
    rw [hturn, hstep, hroll]
    split
    all_goals decide

/-- Leaflets are balanced one by one. -/
theorem leaflets_always : ∀ count i, (leaflets habit depth i count).Always fun out =>
    Balanced (out.map Symbol.tag) ∧ (out.map Symbol.tag).Sublist (blades i count)
  | 0, _ => .pure ⟨.nil, List.Sublist.refl _⟩
  | count + 1, i => by
    refine (leaflet_always habit depth i).bind fun first hfirst => ?_
    refine (leaflets_always count (i + 1)).bind fun rest hrest => .pure ?_
    rw [List.map_append]
    exact ⟨hfirst.1.append hrest.1, hfirst.2.append hrest.2⟩

/-- Fewer leaflets are part of more. -/
theorem blades_sublist : ∀ {count n : Nat}, count ≤ n → ∀ i, (blades i count).Sublist (blades i n)
  | 0, _, _, _ => List.nil_sublist _
  | _ + 1, _ + 1, h, i => (List.Sublist.refl _).append (blades_sublist (Nat.le_of_succ_le_succ h) (i + 1))

/-- **A frond is balanced and part of the largest frond,** whatever number of leaflets is drawn. -/
theorem frond_always (s : Symbol Float) : (frond.apply habit depth s).Always fun out =>
    Balanced (out.map Symbol.tag) ∧ (out.map Symbol.tag).Sublist largestFrond := by
  refine (create_always habit depth 'F').bind fun step hstep => ?_
  refine (create_always habit depth '&').bind fun pitch hpitch => ?_
  refine (Draw.integer_always (by decide) (by decide)).bind fun count hcount => ?_
  refine (leaflets_always habit depth count.toNat 0).bind fun leaves hleaves => .pure ?_
  obtain ⟨hbalanced, hsublist⟩ := hleaves
  rw [List.map_append, List.map_append, List.map_cons, List.map_singleton, List.map_singleton, hstep, hpitch]
  constructor
  · exact (Balanced.append (by decide) hbalanced).append (by decide)
  · have hblades := hsublist.trans (blades_sublist (show count.toNat ≤ 4 by omega) 0)
    exact ((List.Sublist.refl ['F', '&']).append hblades).append (List.Sublist.refl ['X'])

/-! ## The five plans -/

theorem plan_eq_ok {seed start : String} {rules : List (Rule Float)} {habit : Habit Float}
    (h : (Grammar.ofRules start rules habit).toBool = true) (n : Nat) :
    plan seed start rules habit n = .ok { Plan.ofGrammar ⟨start, rules, habit⟩ n with seed := seed } := by
  unfold plan
  rw [Grammar.ofRules_eq_ok_of_toBool h]
  rfl

/-- The texts of a plan in which only `X` grows. -/
def budding (text : List Char) (c : Char) : Option (List Char) := if c = 'X' then some text else none

theorem oak_hardy : ∃ p, oak = .ok p ∧ p.Hardy 23431 :=
  ⟨_, plan_eq_ok (by decide +kernel) 4, .of_suits (budding "F[&+XL]///[&-XL]//[^XL]".toList) (by decide +kernel)
    (by decide +kernel) (by decide +kernel) (by decide +kernel)⟩

theorem pine_hardy : ∃ p, pine = .ok p ∧ p.Hardy 23431 := by
  unfold pine
  rw [plan_eq_ok (by decide +kernel)]
  exact ⟨_, rfl, .of_suits (budding "F[&&&L]///[&&&XL]///[&&&XL]///[&&&XL]X".toList) (by decide +kernel) (by decide +kernel)
    (by decide +kernel) (by decide +kernel)⟩

/-- The texts of the willow, whose steps multiply as well. -/
def weeping : Char → Option (List Char)
  | 'X' => some "F[&&&XL]//[&&&XL]/F[&XL]".toList
  | 'F' => some "F&F".toList
  | _ => none

theorem willow_hardy : ∃ p, willow = .ok p ∧ p.Hardy 23431 := by
  unfold willow
  rw [plan_eq_ok (by decide +kernel)]
  exact ⟨_, rfl, .of_suits weeping (by decide +kernel) (by decide +kernel) (by decide +kernel) (by decide +kernel)⟩

theorem bush_hardy : ∃ p, bush = .ok p ∧ p.Hardy 23431 := by
  unfold bush
  rw [plan_eq_ok (by decide +kernel)]
  exact ⟨_, rfl, .of_suits (budding "F[/+XL][\\-XL][^XL][&XL]".toList) (by decide +kernel) (by decide +kernel)
    (by decide +kernel) (by decide +kernel)⟩

/-- A fern has 23431 symbols if every leaflet is there and goes on growing. -/
theorem fern_hardy : ∃ p, fern = .ok p ∧ p.Hardy 23431 := by
  unfold fern
  rw [plan_eq_ok (by decide +kernel)]
  refine ⟨_, rfl, Except.eq_ok_of_toBool (by decide +kernel), ⟨by decide +kernel, fun r hr => ?_⟩,
    budding largestFrond, fun r hr => ?_, by decide +kernel⟩
  · obtain rfl := List.mem_singleton.mp hr
    exact fun s depth habit rng => (frond_always habit depth s rng).1
  · obtain rfl := List.mem_singleton.mp hr
    exact ⟨largestFrond, rfl, fun depth s => (frond_always _ depth s).of_always fun _ h => h.2⟩

/-- Every name has its plan. -/
theorem exists_hardy {name : String} (hname : name ∈ names) : ∃ p, Plan.preset name = .ok p ∧ p.Hardy 23431 := by
  simp only [names, List.mem_cons, List.not_mem_nil, or_false] at hname
  rcases hname with rfl | rfl | rfl | rfl | rfl
  · exact oak_hardy
  · exact pine_hardy
  · exact willow_hardy
  · exact bush_hardy
  · exact fern_hardy

/-- **No seed makes a ready-made plan fail.** -/
theorem every_seed_grows {name : String} (hname : name ∈ names) : ∃ p, Plan.preset name = .ok p ∧ ∀ seed,
    let q := { p with seed := seed }
    let sentence := q.grammar.expand q.iterations seed
    sentence.length ≤ 23431 ∧ Balanced (sentence.map Symbol.tag) ∧ q.sentence = .ok sentence ∧
      (∃ t, Tree.ofPlan q = .ok t) ∧ (Turtle.walk q.gait sentence).saved = [] := by
  obtain ⟨p, hpreset, hp⟩ := exists_hardy hname
  refine ⟨p, hpreset, fun seed => ?_⟩
  have hbalanced := hp.paired.grow (Rng.ofSeed seed) p.iterations
  have hsentence := hp.sentence (by decide) seed
  exact ⟨hp.length_grow (Rng.ofSeed seed) (Nat.le_refl _), hbalanced, hsentence,
    ⟨_, Tree.ofPlan_eq_ok_iff.mpr ⟨_, hsentence, rfl⟩⟩, (Turtle.rest_of_balanced hbalanced _).1⟩

theorem every_seed_grows_fern : "fern" ∈ names ∧ ∃ p, Plan.preset "fern" = .ok p ∧
    (p.grammar.expand p.iterations "moss").length ≤ 23431 := by
  have hname : "fern" ∈ names := by decide
  obtain ⟨p, hpreset, hgrows⟩ := every_seed_grows hname
  exact ⟨hname, p, hpreset, (hgrows "moss").1⟩

end Preset
end Arbor
