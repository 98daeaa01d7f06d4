import Arbor.Proofs.CommandLine.Agreement

/-!
# What a run fails for

Every failure before a file is created, with its reason. A definition is of no use if its file cannot be read, if the text is
not one of a definition, or if its grammar or its plan is not accepted (`Source.Unusable`). `generate` stops for such a
definition, for a name that no preset has, for a plan that is not accepted with what replaces parts of it, for a generation
that is too long and, once the tree is grown, for a path that asks for no format (`Source.Stopped`).

None of these failures is an unknown extension, which only the export of a tree reports (`Source.Stopped.error_ne`), and no
other failure has the same report (`Failure.report_ne_unknownExtension`).
-/

namespace Arbor

/-! ## Definitions of no use -/

namespace Definition

/-- The plan of a definition with an accepted grammar. -/
def draft (d : Definition) (g : Grammar Float) : Plan Float :=
  { grammar := g
    iterations := d.iterations
    seed := d.seed
    gait := d.gait.getD (.ofHabit g.habit)
    bark := d.bark.getD .standard
    leafShape := d.leafShape.getD .standard
    scatter := d.scatter.getD .standard }

/-- A definition describes no plan if its grammar or the plan itself is not accepted. -/
theorem plan_eq_error_iff {d : Definition} {e : Error Float} : d.plan = .error e ↔
    (∃ fault, Grammar.ofRules d.start (d.rules.map LiteralRule.rule) d.habit = .error fault ∧ .grammar fault = e) ∨
    ∃ g, Grammar.ofRules d.start (d.rules.map LiteralRule.rule) d.habit = .ok g ∧
      ∃ fault, (d.draft g).check = .error fault ∧ .plan fault = e := by
  show (Grammar.ofRules d.start (d.rules.map LiteralRule.rule) d.habit).mapError Error.grammar >>= (fun g =>
    (d.draft g).check.mapError Error.plan >>= fun _ => pure (d.draft g)) = .error e ↔ _
  rw [Except.bind_eq_error_iff]
  simp only [Except.bind_pure_eq_error, Except.mapError_eq_error, Except.mapError_eq_ok]

end Definition

namespace Source

/-- Why a definition is of no use, from the content of its file. -/
inductive Unusable (content : Except FileFault ByteArray) : Error Float → Prop where
  /-- The file cannot be read as a text. -/
  | unread {fault : FileFault} (fails : content >>= textOf = .error fault) : Unusable content (.file fault)
  | unparsed {text : String} {fault : JsonFault} (read : content >>= textOf = .ok text)
    (fails : (Json.Document.ofText text).decode Definition.ofJson = .error fault) : Unusable content (.json fault)
  | grammar {text : String} {d : Definition} {fault : GrammarFault Float} (read : content >>= textOf = .ok text)
    (parsed : Definition.ofText text = .ok d)
    (fails : Grammar.ofRules d.start (d.rules.map LiteralRule.rule) d.habit = .error fault) :
    Unusable content (.grammar fault)
  | plan {text : String} {d : Definition} {g : Grammar Float} {fault : PlanFault Float}
    (read : content >>= textOf = .ok text) (parsed : Definition.ofText text = .ok d)
    (accepted : Grammar.ofRules d.start (d.rules.map LiteralRule.rule) d.habit = .ok g)
    (fails : (d.draft g).check = .error fault) : Unusable content (.plan fault)

theorem ofContent_eq_error_iff {content : Except FileFault ByteArray} {e : Error Float} :
    ofContent content = .error e ↔ Unusable content e := by
  unfold ofContent
  rw [Except.bind_eq_error_iff, Except.mapError_eq_error]
  simp only [Except.mapError_eq_ok, Except.bind_eq_error_iff (β := Definition), Definition.plan_eq_error_iff]
  constructor
  · rintro (⟨fault, hread, rfl⟩ |
      ⟨text, hread, hparse | ⟨d, hparse, ⟨fault, hfails, rfl⟩ | ⟨g, hg, fault, hfails, rfl⟩⟩⟩)
    · exact .unread hread
    · obtain ⟨fault, hfault, rfl⟩ := Except.mapError_eq_error.mp hparse
      exact .unparsed hread hfault
    · exact .grammar hread hparse hfails
    · exact .plan hread hparse hg hfails
  · intro h
    cases h with
    | unread fails => exact Or.inl ⟨_, fails, rfl⟩
    | unparsed read fails => exact Or.inr ⟨_, read, Or.inl (Except.mapError_eq_error.mpr ⟨_, fails, rfl⟩)⟩
    | grammar read parsed fails => exact Or.inr ⟨_, read, Or.inr ⟨_, parsed, Or.inl ⟨_, fails, rfl⟩⟩⟩
    | plan read parsed accepted fails =>
      exact Or.inr ⟨_, read, Or.inr ⟨_, parsed, Or.inr ⟨_, accepted, _, fails, rfl⟩⟩⟩

end Source

/-! ## Trees that are not grown -/

namespace Source

variable {look : Lookup} {s : Source} {ring : Option Nat} {f : Failure}

/-- Why no tree of a source is grown. -/
inductive Ungrown (look : Lookup) (s : Source) (ring : Option Nat) : Failure → Prop where
  | definition {path : String} {e : Error Float} (given : s.definition = some path)
    (fails : Unusable (look path) e) : Ungrown look s ring (.loading path e)
  | preset (given : s.definition = none) (fails : s.preset.getD "oak" ∉ Preset.names) :
    Ungrown look s ring (.plain (.unknownPreset (s.preset.getD "oak")))
  /-- The plan is not accepted with all that replaces parts of it. -/
  | plan {p : Plan Float} {fault : PlanFault Float} (planned : s.plan look = .ok p)
    (fails : (p.withRing ring).check = .error fault) : Ungrown look s ring (.plain (.plan fault))
  | tooLong {p : Plan Float} {k : Nat} (planned : s.plan look = .ok p) (accepted : (p.withRing ring).check = .ok ())
    (within : k ≤ p.iterations) (fails : IsLeast {k | Plan.maxSymbols < (p.grammar.expand k p.seed).length} k) :
    Ungrown look s ring (.plain (.sentenceTooLong Plan.maxSymbols k))

theorem tree_eq_error_iff : s.tree look ring = .error f ↔ s.Ungrown look ring f := by
  unfold tree
  simp only [Except.bind_eq_error_iff (x := s.plan look), Except.bind_pure_eq_error, Except.mapError_eq_error,
    Tree.ofPlan_eq_error_iff, Plan.sentence_eq_error_iff, plan_eq_error_iff, ofContent_eq_error_iff]
  constructor
  · rintro ((⟨path, e, hdefinition, he, rfl⟩ | ⟨hdefinition, hname, rfl⟩) |
      ⟨p, hplan, e, ⟨fault, hfails, rfl⟩ | ⟨haccepted, k, hk, hleast, rfl⟩, rfl⟩)
    · exact .definition hdefinition he
    · exact .preset hdefinition hname
    · exact .plan hplan hfails
    · exact .tooLong hplan haccepted hk hleast
  · intro hf
    cases hf with
    | definition given fails => exact Or.inl (Or.inl ⟨_, _, given, fails, rfl⟩)
    | preset given fails => exact Or.inl (Or.inr ⟨given, fails, rfl⟩)
    | plan planned fails => exact Or.inr ⟨_, planned, _, Or.inl ⟨_, fails, rfl⟩, rfl⟩
    | tooLong planned accepted within fails =>
      exact Or.inr ⟨_, planned, _, Or.inr ⟨accepted, _, within, fails, rfl⟩, rfl⟩

/-- A preset grows with every seed. -/
theorem exists_tree_of_preset (look : Lookup) {name : String} (hname : name ∈ Preset.names) (seed : Option String) :
    ∃ grown, tree look ⟨some name, none, seed, none⟩ none = .ok grown := by
  obtain ⟨p, hpreset, hp⟩ := Preset.exists_hardy hname
  have hplan : plan look ⟨some name, none, seed, none⟩ = .ok { p with seed := seed.getD p.seed } := by
    unfold plan planned
    dsimp only [Option.getD_some]
    rw [hpreset]
    rfl
  have hsentence := hp.sentence (by decide) (seed.getD p.seed)
  have htree := Tree.ofPlan_eq_ok_iff.mpr ⟨_, hsentence, rfl⟩
  rw [tree_of_plan hplan]
  exact ⟨_, Except.bind_pure_eq_ok.mpr ⟨_, Except.mapError_eq_ok.mpr htree, rfl⟩⟩

/-- Why `generate` stops before it creates a file. -/
inductive Stopped (look : Lookup) (s : Source) (output : Option String) (ring : Option Nat) : Failure → Prop where
  | ungrown {f : Failure} (fails : s.Ungrown look ring f) : Stopped look s output ring f
  /-- The path asks for no format. -/
  | output {grown : Plan Float × Tree} {path : String} (grows : s.tree look ring = .ok grown)
    (asked : output = some path) (fails : Format.ofPath? path = none) :
    Stopped look s output ring (.unsupportedOutput path)

end Source

/-! ## No unknown extension -/

/-- The error that a failure passes on. -/
def Failure.error? : Failure → Option (Error Float)
  | plain error => some error
  | loading _ error => some error
  | unsupportedOutput _ => none

section Extensions

variable {look : Lookup} {s : Source} {f : Failure}

theorem Source.Unusable.ne_unknownExtension {content : Except FileFault ByteArray} {e : Error Float}
    (h : Unusable content e) (q : String) : e ≠ .unknownExtension q := by
  cases h <;> nofun

theorem Source.Refused.error_ne (h : s.Refused look f) (q : String) : f.error? ≠ some (.unknownExtension q) := by
  cases h with
  | definition _ fails =>
    exact fun heq => (ofContent_eq_error_iff.mp fails).ne_unknownExtension q (Option.some.inj heq)
  | preset | plan | tooLong => nofun

theorem Source.Stopped.error_ne {output : Option String} {ring : Option Nat} (h : s.Stopped look output ring f)
    (q : String) : f.error? ≠ some (.unknownExtension q) := by
  cases h with
  | output => nofun
  | ungrown fails =>
    cases fails with
    | definition _ fails => exact fun heq => fails.ne_unknownExtension q (Option.some.inj heq)
    | preset | plan | tooLong => nofun

/-- A preset is listed unless it has no name. -/
theorem Program.presetLine_eq_error {name : String} (h : presetLine name = .error f) :
    f = .plain (.unknownPreset name) := by
  obtain ⟨e, he, rfl⟩ := Except.mapError_eq_error.mp (Except.bind_pure_eq_error.mp h)
  rw [(Plan.preset_eq_error_iff.mp he).2]

end Extensions

/-! ## Reports -/

/-- A text starts with the letter that its first part starts with. -/
theorem String.head?_toList_append {s t : String} {c : Char} (h : s.toList.head? = some c) :
    (s ++ t).toList.head? = some c := by
  rw [String.toList_append, List.head?_append, h]
  rfl

namespace Failure

/-- A report starts with the headline. -/
theorem toList_report (f : Failure) : ∃ rest, f.report.toList = "Error: ".toList ++ (f.headline.toList ++ rest) := by
  unfold report
  simp only [String.toList_append, List.append_assoc]
  exact ⟨_, rfl⟩

theorem head?_report (f : Failure) : f.report.toList.head? = some 'E' := by
  obtain ⟨rest, hreport⟩ := toList_report f
  rw [hreport]
  rfl

/-- The headlines of all other failures start with another letter. -/
theorem head?_headline {f : Failure} (h : ∀ q, f.error? ≠ some (.unknownExtension q)) :
    ∃ c, f.headline.toList.head? = some c ∧ c ≠ 'E' := by
  have hstart {s : String} (c : Char) (hc : s.toList.head? = some c) (hne : c ≠ 'E') (t : String) :
      ∃ c, (s ++ t).toList.head? = some c ∧ c ≠ 'E' := ⟨c, String.head?_toList_append hc, hne⟩
  cases f with
  | unsupportedOutput path => exact hstart 'u' (String.head?_toList_append rfl) (by decide) _
  | loading path e => exact hstart 'l' rfl (by decide) path
  | plain e =>
    cases e with
    | unknownExtension q => exact absurd rfl (h q)
    | grammar fault => exact hstart 'I' rfl (by decide) fault.message
    | plan fault => exact hstart 'I' rfl (by decide) fault.message
    | sentenceTooLong limit generation =>
      exact hstart 'S' (String.head?_toList_append (String.head?_toList_append rfl)) (by decide) (toString generation)
    | unknownPreset name => exact hstart 'U' rfl (by decide) name
    | file fault => exact hstart 'I' rfl (by decide) fault.message
    | json fault => exact hstart 'J' rfl (by decide) fault.message

/-- An unknown extension is told from all other failures by its report. -/
theorem report_ne_unknownExtension {f : Failure} (h : ∀ q, f.error? ≠ some (.unknownExtension q)) (q : String) :
    f.report ≠ (plain (.unknownExtension q)).report := by
  intro heq
  obtain ⟨rest, hreport⟩ := toList_report f
  obtain ⟨rest', hreport'⟩ := toList_report (plain (.unknownExtension q))
  obtain ⟨c, hc, hne⟩ := head?_headline h
  -- behind the start that they share the reports go on with their headlines
  have hheadlines := congrArg List.head? (List.append_cancel_left (hreport.symm.trans (heq ▸ hreport')))
  have hq : (plain (.unknownExtension q)).headline.toList.head? = some 'E' := String.head?_toList_append rfl
  rw [List.head?_append, List.head?_append, hc, hq] at hheadlines
  exact hne (Option.some.inj hheadlines)

end Failure

end Arbor
