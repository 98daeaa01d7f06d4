import Arbor.Proofs.Definition.RoundTrip
import Mathlib.Logic.Relation

/-!
# What a definition leaves out

What a definition leaves out has one meaning, so that it may as well be spelled out. `Definition.SpellsOut` relates two
JSON values of which the second writes out one default of the first: a field of the definition, the odds of one of its
rules, or a number of its habit. The plan stays the same, and so does the refusal if there is none
(`Definition.map_plan_of_spellsOut`). Most defaults are already there when the record is read. The others, the walk that
follows from the habit and the standard sections, come in when the plan is made (`Definition.plan_gait`).

`Definition.nothing_lost` states this for texts, together with the way back from a definition that was written.
-/

namespace Arbor

open Json

theorem toList_append_of {s t : String} {cs ds : List Char} (hs : s.toList = cs) (ht : t.toList = ds) :
    (s ++ t).toList = cs ++ ds := by
  rw [String.toList_append, hs, ht]

/-- A text is read by its characters. -/
theorem Json.Document.ofText_of_toList {text : String} {cs : List Char} (h : text.toList = cs) : Document.ofText text =
    match Reader.finish ((Token.readAll #[] (cs.length + 1) cs).toList.foldl Reader.take (.underway [] .value)) with
    | .whole v trailing => ⟨v, trailing⟩
    | .underway _ _ => ⟨.broken .unfinished .unfinished, false⟩ := by
  subst h
  rfl

/-! ## Fields of their own -/

theorem LiteralRule.independent_fields : Field.Independent fields where
  names := nodup_fields
  places := by
    intro f hf
    simp only [fields, List.mem_cons, List.not_mem_nil, or_false] at hf
    rcases hf with rfl | rfl | rfl
    all_goals
      refine Field.places_of_respects fun x => ?_
      simp [fields, Field.respects_required, Field.respects_optional]

theorem Habit.independent_fields : Field.Independent fields where
  names := nodup_fields
  places := by
    intro f hf
    simp only [fields, List.mem_cons, List.not_mem_nil, or_false] at hf
    rcases hf with rfl | rfl | rfl | rfl | rfl | rfl
    all_goals
      refine Field.places_of_respects fun x => ?_
      simp [fields, Field.respects_optional]

namespace Definition

theorem independent_fields : Field.Independent fields where
  names := nodup_fields
  places := by
    intro f hf
    simp only [fields, List.mem_cons, List.not_mem_nil, or_false] at hf
    rcases hf with rfl | rfl | rfl | rfl | rfl | rfl | rfl | rfl | rfl
    all_goals
      refine Field.places_of_respects fun x => ?_
      simp [fields, Field.respects_required, Field.respects_optional]

/-! ## Standard sections -/

variable {d : Definition}

/-- The walk of a definition that states none is the one that its habit gives. -/
theorem plan_gait (h : d.gait = none) : plan { d with gait := some (.ofHabit d.habit) } = d.plan := by
  unfold plan
  rw [h]
  cases hgrammar : Grammar.ofRules d.start (d.rules.map LiteralRule.rule) d.habit with
  | error fault => rfl
  | ok grammar =>
    obtain ⟨-, -, -, -, rfl⟩ := Grammar.ofRules_eq_ok_iff.mp hgrammar
    rfl

theorem plan_bark (h : d.bark = none) : plan { d with bark := some .standard } = d.plan := by
  unfold plan
  rw [h]
  rfl

theorem plan_leafShape (h : d.leafShape = none) : plan { d with leafShape := some .standard } = d.plan := by
  unfold plan
  rw [h]
  rfl

theorem plan_scatter (h : d.scatter = none) : plan { d with scatter := some .standard } = d.plan := by
  unfold plan
  rw [h]
  rfl

/-! ## Defaults spelled out -/

/-- The second definition spells out one default of the first. -/
inductive SpellsOut : Json → Json → Prop where
  /-- The rules, the habit, the iterations, the seed, or null for another section. -/
  | field {w w' : Json} (h : Json.SpellsOut fields (ofStart "") w w') : SpellsOut w w'
  | odds {before after : List Json} {fault : Option JsonFault} {r r' w w' : Json}
    (h : Json.SpellsOut LiteralRule.fields ⟨' ', 1.0, ""⟩ r r')
    (place : Exchanges fields "rules" (.array (before ++ r :: after) fault) (.array (before ++ r' :: after) fault)
      w w') : SpellsOut w w'
  | habit {v v' w w' : Json} (h : Json.SpellsOut Habit.fields .standard v v')
    (place : Exchanges fields "lsystem" v v' w w') : SpellsOut w w'
  /-- The walk, with the radii of the habit. -/
  | gait {v w w' : Json} {g : Gait Float} (value : Gait.ofJson v = .ok g)
    (derived : ∀ d, ofJson w = .ok d → g = .ofHabit d.habit) (place : Extends fields "turtle" v w w') : SpellsOut w w'
  | bark {v w w' : Json} (value : Bark.ofJson v = .ok .standard) (place : Extends fields "branch" v w w') :
    SpellsOut w w'
  | leafShape {v w w' : Json} (value : LeafShape.ofJson v = .ok .standard)
    (place : Extends fields "leaf_shape" v w w') : SpellsOut w w'
  | scatter {v w w' : Json} (value : LeafScatter.ofJson v = .ok .standard)
    (place : Extends fields "leaf_instances" v w w') : SpellsOut w w'

/-- A section that is there in place of one that is not. -/
theorem map_plan_of_section {β : Type} {name : String} {read : Json → Except JsonFault β}
    {set : Definition → Option β → Definition} {x : β} {v w w' : Json}
    (hf : Field.optional name (option? read) set ∈ fields) (hstart : set (ofStart "") none = ofStart "")
    (hnull : ∀ x, read .null ≠ .ok x) (hv : read v = .ok x) (h : Extends fields name v w w')
    (hplan : ∀ d, ofJson w = .ok d → set d none = d → (set d (some x)).plan = d.plan) :
    plan <$> ofJson w' = plan <$> ofJson w := by
  have hoption : option? read v = .ok (some x) := by
    rw [option?_of_ne_null fun hnot => hnull x (hnot ▸ hv), hv]
    rfl
  have hsome : ∀ d, (Field.optional name (option? read) set).set d v = .ok (set d (some x)) := fun d =>
    Except.bind_pure_eq_ok.mpr ⟨some x, hoption, rfl⟩
  have hnone : ∀ d, (Field.optional name (option? read) set).set d .null = .ok (set d none) := fun d => rfl
  have hread : ofJson w' = (fun d => set d (some x)) <$> ofJson w :=
    record?_extends nodup_fields (independent_fields.writes hf ⟨rfl, rfl⟩ hsome (ofStart "")) h
  have hdefault : ∀ d, ofJson w = .ok d → set d none = d := fun d hd =>
    eq_of_record?_eq_ok nodup_fields (independent_fields.writes hf ⟨rfl, rfl⟩ hnone (ofStart "")) h hstart hd
  rw [hread]
  cases hw : ofJson w with
  | error e => rfl
  | ok d => exact congrArg Except.ok (hplan d hw (hdefault d hw))

/-- A section that is read alike. -/
theorem ofJson_exchange {β : Type} {name : String} {read : Json → Except JsonFault β} {set : Definition → β → Definition}
    {v v' w w' : Json} (hf : Field.optional name read set ∈ fields) (hv : read v' = read v)
    (h : Exchanges fields name v v' w w') : ofJson w' = ofJson w := by
  refine record?_exchanges nodup_fields hf (fun d => ?_) h
  show (read v' >>= fun x => pure (set d x)) = read v >>= fun x => pure (set d x)
  rw [hv]

/-- Rules of which one is read alike. -/
theorem array?_exchange {β : Type} {read : Json → Except JsonFault β} {before after : List Json}
    {fault : Option JsonFault} {r r' : Json} (h : read r' = read r) :
    array? read (.array (before ++ r' :: after) fault) = array? read (.array (before ++ r :: after) fault) := by
  simp only [array?, List.mapM_append, List.mapM_cons, h]

/-- **Spelling out a default changes neither the plan nor the refusal.** -/
theorem map_plan_of_spellsOut {w w' : Json} (h : SpellsOut w w') : plan <$> ofJson w' = plan <$> ofJson w := by
  cases h with
  | field h => exact congrArg (plan <$> ·) (record?_spellsOut independent_fields h)
  | odds h place =>
    have hf : Field.optional "rules" (array? LiteralRule.ofJson) (fun d rules => { d with rules := rules }) ∈ fields := by
      simp [fields]
    have hrule := record?_spellsOut LiteralRule.independent_fields h
    exact congrArg (plan <$> ·) (ofJson_exchange hf (array?_exchange hrule) place)
  | habit h place =>
    have hf : Field.optional "lsystem" Habit.ofJson (fun d h => { d with habit := h }) ∈ fields := by simp [fields]
    have hhabit := record?_spellsOut Habit.independent_fields h
    exact congrArg (plan <$> ·) (ofJson_exchange hf hhabit place)
  | gait value derived place =>
    have hf : Field.optional "turtle" (option? Gait.ofJson) (fun d g => { d with gait := g }) ∈ fields := by simp [fields]
    refine map_plan_of_section hf rfl (fun _ h => by cases h) value place fun d hd hnone => ?_
    rw [derived d hd]
    exact plan_gait (congrArg Definition.gait hnone).symm
  | bark value place =>
    have hf : Field.optional "branch" (option? Bark.ofJson) (fun d b => { d with bark := b }) ∈ fields := by simp [fields]
    exact map_plan_of_section hf rfl (fun _ h => by cases h) value place fun d _ hnone => plan_bark (congrArg Definition.bark hnone).symm
  | leafShape value place =>
    have hf : Field.optional "leaf_shape" (option? LeafShape.ofJson) (fun d s => { d with leafShape := s }) ∈ fields := by
      simp [fields]
    exact map_plan_of_section hf rfl (fun _ h => by cases h) value place fun d _ hnone =>
      plan_leafShape (congrArg Definition.leafShape hnone).symm
  | scatter value place =>
    have hf : Field.optional "leaf_instances" (option? LeafScatter.ofJson) (fun d s => { d with scatter := s }) ∈
      fields := by simp [fields]
    exact map_plan_of_section hf rfl (fun _ h => by cases h) value place fun d _ hnone =>
      plan_scatter (congrArg Definition.scatter hnone).symm

/-- Spelling out any number of defaults. -/
theorem map_plan_of_reflTransGen {w w' : Json} (h : Relation.ReflTransGen SpellsOut w w') :
    plan <$> ofJson w' = plan <$> ofJson w := by
  induction h with
  | refl => rfl
  | tail _ hstep ih => exact (map_plan_of_spellsOut hstep).trans ih

/-! ## Texts -/

theorem ofText_eq {text : String} {w : Json} {trailing : Bool} (h : Document.ofText text = ⟨w, trailing⟩) :
    ofText text = (ofJson w >>= fun d => if trailing then .error .malformed else .ok d).mapError .json := by
  unfold ofText
  rw [h]
  cases trailing <;> rfl

/-- Texts of values that are read as the same plan. -/
theorem ofText_bind_plan {text text' : String} {w w' : Json} {trailing : Bool}
    (h : Document.ofText text = ⟨w, trailing⟩) (h' : Document.ofText text' = ⟨w', trailing⟩)
    (hplan : plan <$> ofJson w' = plan <$> ofJson w) : (ofText text' >>= plan) = (ofText text >>= plan) := by
  rw [ofText_eq h, ofText_eq h']
  cases hw : ofJson w with
  | error e =>
    cases hw' : ofJson w' with
    | error e' =>
      rw [hw, hw'] at hplan
      rw [Except.error.inj hplan]
    | ok d' =>
      rw [hw, hw'] at hplan
      cases hplan
  | ok d =>
    cases hw' : ofJson w' with
    | error e' =>
      rw [hw, hw'] at hplan
      cases hplan
    | ok d' =>
      rw [hw, hw'] at hplan
      cases trailing with
      | true => rfl
      | false => exact Except.ok.inj hplan

/-- **Nothing is lost between a definition and its text, and what is left out has one meaning.** A definition is read
back as it was written. Defaults that are spelled out, however many, change neither the plan that a text describes nor
the refusal. What states no more than a grammar and its iterations describes the standard plan of the grammar. -/
theorem nothing_lost :
    (∀ d : Definition, d.Writable → ofJson d.toJson = .ok d ∧
      ∀ text, Document.ofText text = ⟨d.toJson, false⟩ → ofText text = .ok d) ∧
    (∀ w w', Relation.ReflTransGen SpellsOut w w' → plan <$> ofJson w' = plan <$> ofJson w ∧
      ∀ text text' trailing, Document.ofText text = ⟨w, trailing⟩ → Document.ofText text' = ⟨w', trailing⟩ →
        (ofText text' >>= plan) = (ofText text >>= plan)) ∧
    (∀ start, ofJson (.record [("axiom", .string start)]) =
      .ok ⟨start, [], .standard, 4, "sylva", none, none, none, none⟩) ∧
    ∀ start rules habit iterations, plan ⟨start, rules, habit, iterations, "sylva", none, none, none, none⟩ =
      match Grammar.ofRules start (rules.map LiteralRule.rule) habit with
      | .error fault => .error (.grammar fault)
      | .ok g =>
        match (Plan.ofGrammar g iterations).check with
        | .error fault => .error (.plan fault)
        | .ok () => .ok (.ofGrammar g iterations) := by
  refine ⟨fun d hd => ⟨ofJson_toJson hd, fun text htext => ?_⟩, fun w w' h => ?_, fun start => rfl, ?_⟩
  · rw [ofText_eq htext, ofJson_toJson hd]
    rfl
  · have hplan := map_plan_of_reflTransGen h
    exact ⟨hplan, fun text text' trailing htext htext' => ofText_bind_plan htext htext' hplan⟩
  · intro start rules habit iterations
    unfold plan
    cases Grammar.ofRules start (rules.map LiteralRule.rule) habit with
    | error fault => rfl
    | ok g =>
      let p := Plan.ofGrammar g iterations
      show (p.check.mapError Error.plan >>= fun _ => pure p) = match p.check with
        | .error fault => .error (.plan fault)
        | .ok () => .ok p
      cases p.check with
      | error fault => rfl
      | ok => rfl

/-- A definition with some of its sections, and with a rule for a character that has to be escaped. -/
def bramble : Definition :=
  ⟨"FX", [⟨'"', 2.0, "\n"⟩], ⟨1.0, 0.0, 1.0, 1.0, 1.0, 0.0⟩, 3, "", none, some ⟨3, 1.0⟩, none, none⟩

/-- A definition that leaves out what it can. -/
def terse : Json :=
  .record [("axiom", .string "F"), ("rules", .list [.record [("match", .string "F"), ("produce", .string "FF")]])]

/-- The same definition with the odds of its rule. -/
def weighed : Json :=
  .record [
    ("axiom", .string "F"),
    ("rules", .list [.record [("match", .string "F"), ("odds", .natural 1), ("produce", .string "FF")]])]

/-- The same definition with the odds of its rule and its walk. -/
def verbose : Json :=
  .record [
    ("axiom", .string "F"),
    ("turtle", .record [("base_radius", .double 0.1)]),
    ("rules", .list [.record [("match", .string "F"), ("odds", .natural 1), ("produce", .string "FF")]])]

theorem spellsOut_weighed : SpellsOut terse weighed := by
  refine @SpellsOut.odds [] [] none _ _ _ _ ?_
    (@Exchanges.member _ fields "rules" _ _ [(.ok "axiom", .string "F")] [] none)
  have hf : Field.optional "odds" double? (fun r x => { r with odds := x }) ∈ LiteralRule.fields := by
    simp [LiteralRule.fields]
  exact .intro hf ⟨rfl, rfl⟩ rfl
    (@Extends.member _ LiteralRule.fields "odds" (.natural 1) [(.ok "match", .string "F")]
      [(.ok "produce", .string "FF")] none (by simp))

theorem spellsOut_verbose : SpellsOut weighed verbose := by
  have hread : ofJson weighed = .ok ⟨"F", [⟨'F', 1.0, "FF"⟩], .standard, 4, "sylva", none, none, none, none⟩ := rfl
  refine @SpellsOut.gait (.record [("base_radius", .double 0.1)]) _ _ ⟨0.1, 0.7, 1.0, 30.0⟩ rfl (fun d hd => ?_)
    (@Extends.member _ fields "turtle" _ [(.ok "axiom", .string "F")] [(.ok "rules", _)] none (by simp))
  rw [hread] at hd
  cases hd
  rfl

set_option maxRecDepth 20000 in
/-- The bramble is read back from its text, and the terse text describes the same plan as the verbose one. -/
theorem nothing_lost_bramble :
    let written :=
      "\x7b\"axiom\":\"FX\",\"rules\":[\x7b\"match\":\"\\\"\",\"odds\":2.0,\"produce\":\"\\n\"\x7d],\"lsystem\":\x7b" ++
      ("\"base_length\":1.0,\"base_radius\":0.0,\"length_falloff\":1.0,\"radius_falloff\":1.0,\"branch_angle\":1.0," ++
      ("\"variability\":0.0\x7d,\"iterations\":3,\"seed\":\"\",\"turtle\":null,\"branch\":\x7b\"radial_segments\":3," ++
      "\"texture_scale\":1.0\x7d,\"leaf_shape\":null,\"leaf_instances\":null\x7d"))
    let short := "\x7b\"axiom\":\"F\",\"rules\":[\x7b\"match\":\"F\",\"produce\":\"FF\"\x7d]\x7d"
    let long :=
      "\x7b\"axiom\":\"F\",\"turtle\":\x7b\"base_radius\":0.1\x7d," ++
      "\"rules\":[\x7b\"match\":\"F\",\"odds\":1,\"produce\":\"FF\"\x7d]\x7d"
    bramble.Writable ∧ Document.ofText written = ⟨bramble.toJson, false⟩ ∧ ofText written = .ok bramble ∧
      Relation.ReflTransGen SpellsOut terse verbose ∧ Document.ofText short = ⟨terse, false⟩ ∧
      Document.ofText long = ⟨verbose, false⟩ ∧ (ofText long >>= plan) = (ofText short >>= plan) := by
  intro written short long
  have hbramble : bramble.Writable := ⟨by decide +kernel, by decide +kernel⟩
  have hwritten : Document.ofText written = ⟨bramble.toJson, false⟩ :=
    (Document.ofText_of_toList (toList_append_of String.toList_ofList (toList_append_of String.toList_ofList
      (toList_append_of String.toList_ofList String.toList_ofList)))).trans rfl
  have hshort : Document.ofText short = ⟨terse, false⟩ := (Document.ofText_of_toList String.toList_ofList).trans rfl
  have hlong : Document.ofText long = ⟨verbose, false⟩ :=
    (Document.ofText_of_toList (toList_append_of String.toList_ofList String.toList_ofList)).trans rfl
  have hverbose : Relation.ReflTransGen SpellsOut terse verbose := .tail (.single spellsOut_weighed) spellsOut_verbose
  exact ⟨hbramble, hwritten, (nothing_lost.1 bramble hbramble).2 written hwritten, hverbose, hshort, hlong,
    (nothing_lost.2.1 terse verbose hverbose).2 short long false hshort hlong⟩

end Definition
end Arbor
