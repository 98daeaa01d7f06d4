import Arbor.Proofs.CommandLine.Program
import Arbor.Proofs.Growth.Limit
import Arbor.Proofs.Preset
import Arbor.Proofs.Refusal
import Arbor.Proofs.Tree.Stats
import Mathlib.Order.Nat

/-!
# Two questions about one tree

`sentence` and `generate` go to the tree of a source on separate ways. What they fetch is the plan of the source
(`Program.exec_fetch`), and from there both ways are one: each of them grows the sentence of the plan (`Source.grow`,
`Program.exec_sentence`, `Program.exec_counts`). Where this ends early is described from the outside by `Source.Refused`:
the definition cannot be used, the preset does not exist, the plan is not accepted with what replaces parts of it, or a
generation is too long. Hence both subcommands fail for the same sources and with the same failure, and otherwise the counts
of the one are read off the text of the other (`Program.subcommands_agree`).
-/

namespace Arbor

/-! ## Growth that is refused -/

section Refusals

variable {α : Type} [Scalar α]

/-- Growth under a limit is refused for the least generation that is too long, and for nothing else. -/
theorem Grammar.expandWithin_eq_error_iff {g : Grammar α} {limit n : Nat} {seed : String} {e : Error α} :
    g.expandWithin limit n seed = .error e ↔
      ∃ k ≤ n, IsLeast {k | limit < (g.expand k seed).length} k ∧ e = .sentenceTooLong limit k := by
  constructor
  · intro h
    by_cases hfit : ∀ k ≤ n, (g.expand k seed).length ≤ limit
    · rw [expandWithin_ok g hfit] at h
      cases h
    · push Not at hfit
      obtain ⟨m, hm, hlong⟩ := hfit
      classical
      have hex : ∃ k, limit < (g.expand k seed).length := ⟨m, hlong⟩
      have hleast : IsLeast {k | limit < (g.expand k seed).length} (Nat.find hex) := Nat.isLeast_find hex
      have hle : Nat.find hex ≤ n := (Nat.find_min' hex hlong).trans hm
      rw [expandWithin_error g hle hleast] at h
      cases h
      exact ⟨_, hle, hleast, rfl⟩
  · rintro ⟨k, hk, hleast, rfl⟩
    exact expandWithin_error g hk hleast

/-- A plan has no sentence if it is not accepted, or if one of its generations is too long. -/
theorem Plan.sentence_eq_error_iff {p : Plan α} {e : Error α} : p.sentence = .error e ↔
    (∃ fault, p.check = .error fault ∧ e = .plan fault) ∨ p.check = .ok () ∧ ∃ k ≤ p.iterations,
      IsLeast {k | maxSymbols < (p.grammar.expand k p.seed).length} k ∧ e = .sentenceTooLong maxSymbols k := by
  unfold Plan.sentence
  rw [Except.check_bind_eq_error, Except.mapError_eq_error, Except.mapError_eq_ok, Grammar.expandWithin_eq_error_iff]
  simp only [eq_comm]

theorem Tree.ofPlan_eq_error_iff {p : Plan Float} {e : Error Float} :
    Tree.ofPlan p = .error e ↔ p.sentence = .error e := by
  rw [Tree.ofPlan_eq_bind, Except.bind_pure_eq_error]

end Refusals

/-- A preset is refused if it has no name. -/
theorem Plan.preset_eq_error_iff {name : String} {e : Error Float} :
    Plan.preset name = .error e ↔ name ∉ Preset.names ∧ e = .unknownPreset name := by
  by_cases hname : name ∈ Preset.names
  · obtain ⟨p, hp, -⟩ := Preset.exists_hardy hname
    rw [hp]
    exact iff_of_false nofun fun h => h.1 hname
  · have hunknown : Plan.preset name = .error (.unknownPreset name) := by
      simp only [Preset.names, List.mem_cons, List.not_mem_nil, or_false, not_or] at hname
      obtain ⟨hoak, hpine, hwillow, hbush, hfern⟩ := hname
      unfold Plan.preset
      split
      · exact absurd rfl hoak
      · exact absurd rfl hpine
      · exact absurd rfl hwillow
      · exact absurd rfl hbush
      · exact absurd rfl hfern
      · rfl
    rw [hunknown, and_iff_right hname, Except.error.injEq, eq_comm]

/-! ## Sources -/

namespace Source

/-- The plan that a source starts from, with a file as it is found. -/
def planned (look : Lookup) (s : Source) : Except Failure (Plan Float) :=
  match s.definition with
  | some path => (ofContent (look path)).mapError (.loading path)
  | none => (Plan.preset (s.preset.getD "oak")).mapError .plain

/-- The plan that a source describes, with all that replaces parts of it. -/
def plan (look : Lookup) (s : Source) : Except Failure (Plan Float) := do
  let p ← s.planned look
  return { p with seed := s.seed.getD p.seed, iterations := s.iterations.getD p.iterations }

/-- Why there is no tree of a source. -/
inductive Refused (look : Lookup) (s : Source) : Failure → Prop where
  /-- The definition cannot be read, or describes no plan. -/
  | definition {path : String} {e : Error Float} (given : s.definition = some path)
    (fails : ofContent (look path) = .error e) : Refused look s (.loading path e)
  | preset (given : s.definition = none) (fails : s.preset.getD "oak" ∉ Preset.names) :
    Refused look s (.plain (.unknownPreset (s.preset.getD "oak")))
  /-- The plan is not accepted with the seed and the iterations of the source. -/
  | plan {p : Plan Float} {fault : PlanFault Float} (planned : s.plan look = .ok p) (fails : p.check = .error fault) :
    Refused look s (.plain (.plan fault))
  | tooLong {p : Plan Float} {k : Nat} (planned : s.plan look = .ok p) (accepted : p.check = .ok ())
    (within : k ≤ p.iterations) (fails : IsLeast {k | Plan.maxSymbols < (p.grammar.expand k p.seed).length} k) :
    Refused look s (.plain (.sentenceTooLong Plan.maxSymbols k))

variable {look : Lookup} {s : Source} {f : Failure}

theorem plan_eq_error_iff : s.plan look = .error f ↔
    (∃ path e, s.definition = some path ∧ ofContent (look path) = .error e ∧ f = .loading path e) ∨
    s.definition = none ∧ s.preset.getD "oak" ∉ Preset.names ∧
      f = .plain (.unknownPreset (s.preset.getD "oak")) := by
  unfold plan planned
  rw [Except.bind_pure_eq_error]
  cases hdefinition : s.definition with
  | some path =>
    rw [Except.mapError_eq_error]
    constructor
    · rintro ⟨e, he, rfl⟩
      exact Or.inl ⟨path, e, rfl, he, rfl⟩
    · rintro (⟨_, e, ⟨⟩, he, rfl⟩ | ⟨⟨⟩, -⟩)
      exact ⟨e, he, rfl⟩
  | none =>
    rw [Except.mapError_eq_error]
    constructor
    · rintro ⟨e, he, rfl⟩
      obtain ⟨hname, rfl⟩ := Plan.preset_eq_error_iff.mp he
      exact Or.inr ⟨rfl, hname, rfl⟩
    · rintro (⟨_, _, ⟨⟩, -⟩ | ⟨-, hname, rfl⟩)
      exact ⟨_, Plan.preset_eq_error_iff.mpr ⟨hname, rfl⟩, rfl⟩

/-- The plan of a source, with its sentence. -/
def grow (look : Lookup) (s : Source) : Except Failure (Plan Float × List (Symbol Float)) :=
  s.plan look >>= fun p => p.sentence.mapError .plain >>= fun sentence => pure (p, sentence)

theorem grow_of_plan_error (h : s.plan look = .error f) : s.grow look = .error f := by
  unfold grow
  rw [h]
  rfl

theorem grow_of_plan {p : Plan Float} (h : s.plan look = .ok p) :
    s.grow look = p.sentence.mapError .plain >>= fun sentence => pure (p, sentence) := by
  unfold grow
  rw [h]
  rfl

theorem grow_eq_ok_iff {p : Plan Float} {sentence : List (Symbol Float)} :
    s.grow look = .ok (p, sentence) ↔ s.plan look = .ok p ∧ p.sentence = .ok sentence := by
  cases hplan : s.plan look with
  | error => rw [grow_of_plan_error hplan]; exact iff_of_false nofun nofun
  | ok q =>
    rw [grow_of_plan hplan, Except.bind_pure_eq_ok]
    simp only [Except.mapError_eq_ok, Prod.mk.injEq, Except.ok.injEq]
    constructor
    · rintro ⟨_, hsentence, rfl, rfl⟩
      exact ⟨rfl, hsentence⟩
    · rintro ⟨rfl, hsentence⟩
      exact ⟨_, hsentence, rfl, rfl⟩

/-- **A source has no sentence exactly if it is refused.** -/
theorem grow_eq_error_iff : s.grow look = .error f ↔ s.Refused look f := by
  unfold grow
  simp only [Except.bind_eq_error_iff (x := s.plan look), Except.bind_pure_eq_error, Except.mapError_eq_error,
    Plan.sentence_eq_error_iff, plan_eq_error_iff]
  constructor
  · rintro ((⟨path, e, hdefinition, he, rfl⟩ | ⟨hdefinition, hname, rfl⟩) |
      ⟨p, hplan, e, ⟨fault, hfails, rfl⟩ | ⟨haccepted, k, hk, hleast, rfl⟩, rfl⟩)
    · exact .definition hdefinition he
    · exact .preset hdefinition hname
    · exact .plan hplan hfails
    · exact .tooLong hplan haccepted hk hleast
  · intro hf
    cases hf with
    | definition given fails => exact Or.inl (Or.inl ⟨_, _, given, fails, rfl⟩)
    | preset given fails => exact Or.inl (Or.inr ⟨given, fails, rfl⟩)
    | plan planned fails => exact Or.inr ⟨_, planned, _, Or.inl ⟨_, fails, rfl⟩, rfl⟩
    | tooLong planned accepted within fails =>
      exact Or.inr ⟨_, planned, _, Or.inr ⟨accepted, _, within, fails, rfl⟩, rfl⟩

/-- The plan of a source with all that replaces parts of it, and its tree. -/
def tree (look : Lookup) (s : Source) (ring : Option Nat) : Except Failure (Plan Float × Tree) :=
  s.plan look >>= fun p => (Tree.ofPlan (p.withRing ring)).mapError .plain >>= fun t => pure (p.withRing ring, t)

theorem tree_of_plan_error {ring : Option Nat} (h : s.plan look = .error f) : s.tree look ring = .error f := by
  unfold tree
  rw [h]
  rfl

theorem tree_of_plan {p : Plan Float} (h : s.plan look = .ok p) (ring : Option Nat) :
    s.tree look ring = (Tree.ofPlan (p.withRing ring)).mapError .plain >>= fun t => pure (p.withRing ring, t) := by
  unfold tree
  rw [h]
  rfl

/-- With the rings of the plan the tree of a source is that of its sentence. -/
theorem tree_none : s.tree look none = s.grow look >>= fun grown =>
    pure (grown.1, Tree.ofSkeleton grown.1 (.ofSentence grown.1.gait grown.2) grown.2.length) := by
  cases hplan : s.plan look with
  | error => rw [tree_of_plan_error hplan, grow_of_plan_error hplan]; rfl
  | ok p =>
    rw [tree_of_plan hplan, grow_of_plan hplan, show p.withRing none = p from rfl, Tree.ofPlan_eq_bind]
    cases p.sentence <;> rfl

end Source

/-! ## The two ways -/

namespace Program

variable {σ : Type} (fs : Storage σ) (w : World σ) (source : Source)

/-- What is fetched is the plan of the source, with files as they are found. -/
theorem exec_fetch : source.fetch.exec fs w = (source.plan (fs.read w.files), w) := by
  have hdraft : source.draft.exec fs w = (source.planned (fs.read w.files), w) := by
    unfold Source.draft Source.planned
    cases source.definition with
    | some path => exact exec_ofExcept fs w _
    | none => exact exec_ofExcept fs w _
  unfold Source.fetch Source.plan
  rw [exec_bind, hdraft]
  cases source.planned (fs.read w.files) <;> rfl

/-- What is printed of a plan is its sentence: the checks that the subcommand makes for itself are those of the plan. -/
theorem exec_printSentence (p : Plan Float) : (printSentence p).exec fs w =
    match p.sentence with
    | .error e => (.error (.plain e), w)
    | .ok symbols => (.ok (), { w with printed := w.printed ++ (Symbol.text symbols ++ "\n") }) := by
  unfold printSentence Plan.sentence
  rw [exec_bind, exec_ofExcept]
  cases p.check with
  | error => rfl
  | ok =>
    show (ofExcept _ >>= _ : Program Unit).exec fs w =
      match p.grammar.expandWithin Plan.maxSymbols p.iterations p.seed with
      | .error e => (.error (.plain e), w)
      | .ok symbols => (.ok (), { w with printed := w.printed ++ (Symbol.text symbols ++ "\n") })
    rw [exec_bind, exec_ofExcept]
    cases p.grammar.expandWithin Plan.maxSymbols p.iterations p.seed <;> rfl

/-- **`sentence` prints the sentence of its source if there is one.** -/
theorem exec_sentence : (sentence source).exec fs w =
    match source.grow (fs.read w.files) with
    | .error f => (.error f, w)
    | .ok (_, symbols) => (.ok (), { w with printed := w.printed ++ (Symbol.text symbols ++ "\n") }) := by
  unfold sentence
  rw [exec_bind, exec_fetch]
  cases hplan : source.plan (fs.read w.files) with
  | error => rw [Source.grow_of_plan_error hplan]
  | ok p =>
    rw [Source.grow_of_plan hplan]
    show (printSentence p).exec fs w = _
    rw [exec_printSentence]
    cases p.sentence <;> rfl

/-- The lines of the counts of a tree, with its seed. -/
def countLines (seed : String) (s : TreeStats) : String :=
  ("Seed:      " ++ seed ++ "\n") ++
  ("Symbols:   " ++ toString s.symbols ++ "\n") ++
  ("Nodes:     " ++ toString s.nodes ++ "\n") ++
  ("Segments:  " ++ toString s.segments ++ "\n") ++
  ("Leaves:    " ++ toString s.leaves ++ "\n") ++
  ("Triangles: " ++ toString s.triangles ++ "\n")

/-- Six texts that are printed one after another are printed as one. -/
theorem append_six (printed a b c d e f : String) :
    printed ++ a ++ b ++ c ++ d ++ e ++ f = printed ++ (a ++ b ++ c ++ d ++ e ++ f) := by
  simp only [String.append_assoc]

/-- Of a plan the counts of its tree are printed, and then its tree is delivered. -/
theorem exec_growTree (p : Plan Float) (output : Option String) : (growTree p output).exec fs w =
    match Tree.ofPlan p with
    | .error e => (.error (.plain e), w)
    | .ok t => (deliver t output).exec fs { w with printed := w.printed ++ countLines p.seed t.stats } := by
  unfold growTree
  rw [exec_bind, exec_ofExcept]
  cases Tree.ofPlan p with
  | error => rfl
  | ok t =>
    dsimp only [Except.mapError]
    rw [exec_say_bind, exec_say_bind, exec_say_bind, exec_say_bind, exec_say_bind, exec_say_bind]
    exact congrArg (fun printed => (deliver t output).exec fs ⟨w.files, printed⟩) (append_six ..)

/-- **`generate` prints the counts of the tree of its source if there is one,** and delivers the tree. -/
theorem exec_generate (output : Option String) (ring : Option Nat) : (generate source output ring).exec fs w =
    match source.tree (fs.read w.files) ring with
    | .error f => (.error f, w)
    | .ok (p, t) => (deliver t output).exec fs { w with printed := w.printed ++ countLines p.seed t.stats } := by
  unfold generate
  rw [exec_bind, exec_fetch]
  cases hplan : source.plan (fs.read w.files) with
  | error => rw [Source.tree_of_plan_error hplan]
  | ok p =>
    rw [Source.tree_of_plan hplan]
    show (growTree (p.withRing ring) output).exec fs w = _
    rw [exec_growTree]
    cases Tree.ofPlan (p.withRing ring) <;> rfl

/-- The counts are those of the text of the sentence. -/
theorem stats_ofSkeleton (p : Plan Float) (sentence : List (Symbol Float)) :
    let text := Symbol.text sentence
    let stats := (Tree.ofSkeleton p (.ofSentence p.gait sentence) sentence.length).stats
    stats.symbols = text.length ∧ stats.nodes = text.toList.count 'F' + 1 ∧
      stats.segments = text.toList.count 'F' ∧ stats.leaves = text.toList.count 'L' := by
  intro text stats
  have htext : text.toList = sentence.map Symbol.tag := String.toList_ofList
  have hlength : text.length = sentence.length := by rw [← String.length_toList, htext, List.length_map]
  rw [htext, hlength]
  exact ⟨rfl, Skeleton.size_nodes_ofSentence p.gait sentence, Skeleton.size_segments_ofSentence p.gait sentence,
    Skeleton.size_leaves_ofSentence p.gait sentence⟩

/-- **The subcommands agree.** Printing the sentence of a source and counting its tree fail for the same failures, before
anything is printed, and these are the ones that the source is refused for. Without such a failure the text that is printed
is the one whose characters are counted: all of them as symbols, each `F` as a segment that leads to one more node, and each
`L` as a leaf. Of the errors that growing the tree of a plan can give, one is left for a plan that is accepted. -/
theorem subcommands_agree :
    (∀ {σ : Type} (fs : Storage σ) (s : σ) (source : Source),
      let look := fs.read s
      let sentence := (Invocation.sentence source).program.exec fs ⟨s, ""⟩
      let counts := (Invocation.generate source none none).program.exec fs ⟨s, ""⟩
      (∀ f, (sentence = (.error f, ⟨s, ""⟩) ↔ source.Refused look f) ∧
        (counts = (.error f, ⟨s, ""⟩) ↔ source.Refused look f)) ∧
      ((∃ f, source.Refused look f) ∨ ∃ p t text, source.plan look = .ok p ∧ Tree.ofPlan p = .ok t ∧
        sentence = (.ok (), ⟨s, text ++ "\n"⟩) ∧
        counts = (.ok (), ⟨s,
          ("Seed:      " ++ p.seed ++ "\n") ++
          ("Symbols:   " ++ toString text.length ++ "\n") ++
          ("Nodes:     " ++ toString (text.toList.count 'F' + 1) ++ "\n") ++
          ("Segments:  " ++ toString (text.toList.count 'F') ++ "\n") ++
          ("Leaves:    " ++ toString (text.toList.count 'L') ++ "\n") ++
          ("Triangles: " ++ toString t.stats.triangles ++ "\n")⟩))) ∧
    ∀ (p : Plan Float) (e : Error Float), Tree.ofPlan p = .error e ↔
      (∃ fault, p.check = .error fault ∧ e = .plan fault) ∨
      p.check = .ok () ∧ ∃ k ≤ p.iterations,
        IsLeast {k | Plan.maxSymbols < (p.grammar.expand k p.seed).length} k ∧
          e = .sentenceTooLong Plan.maxSymbols k := by
  refine ⟨fun fs s source => ?_, fun p e => Tree.ofPlan_eq_error_iff.trans Plan.sentence_eq_error_iff⟩
  intro look sentence counts
  have hsentence : sentence = _ := exec_sentence fs ⟨s, ""⟩ source
  have hcounts : counts = _ := exec_generate fs ⟨s, ""⟩ source none none
  dsimp only at hsentence hcounts
  rw [Source.tree_none] at hcounts
  cases hgrow : source.grow look with
  | error f =>
    have hrefused : ∀ g, source.Refused look g ↔ f = g := fun g => by
      rw [← Source.grow_eq_error_iff, hgrow, Except.error.injEq]
    rw [hgrow] at hsentence hcounts
    refine ⟨fun g => ?_, Or.inl ⟨f, (hrefused f).mpr rfl⟩⟩
    rw [hsentence, hcounts, hrefused]
    simp
  | ok grown =>
    obtain ⟨p, symbols⟩ := grown
    obtain ⟨hplan, hgrown⟩ := Source.grow_eq_ok_iff.mp hgrow
    obtain ⟨t, ht⟩ : ∃ t, t = Tree.ofSkeleton p (.ofSentence p.gait symbols) symbols.length := ⟨_, rfl⟩
    have hnone : ∀ g, ¬source.Refused look g := fun g hg => by
      cases hgrow.symm.trans (Source.grow_eq_error_iff.mpr hg)
    rw [hgrow] at hsentence hcounts
    have hsaid : sentence = (.ok (), ⟨s, "" ++ (Symbol.text symbols ++ "\n")⟩) := hsentence
    have hcounted : counts = (.ok (), ⟨s, "" ++ countLines p.seed t.stats⟩) := ht ▸ hcounts
    rw [String.empty_append] at hsaid hcounted
    refine ⟨fun g => ?_, Or.inr ⟨p, t, Symbol.text symbols, hplan, ?_, hsaid, hcounted.trans ?_⟩⟩
    · rw [hsaid, hcounted]
      exact ⟨iff_of_false nofun (hnone g), iff_of_false nofun (hnone g)⟩
    · exact Tree.ofPlan_eq_ok_iff.mpr ⟨symbols, hgrown, ht.symm⟩
    · obtain ⟨hsymbols, hnodes, hsegments, hleaves⟩ := stats_ofSkeleton p symbols
      rw [← ht] at hsymbols hnodes hsegments hleaves
      unfold countLines
      rw [hsymbols, hnodes, hsegments, hleaves]

end Program

end Arbor
