import Arbor.Proofs.CommandLine.Failure
import Arbor.Proofs.Directory

/-!
# What a run does to files

The program of `generate` prints its counts, looks at the path and only then asks for a file: it creates one, and writes it
once that has succeeded. Whatever keeps the files, the ways in which this ends are few (`Program.Ends`). A run that fails
before a file is created has left all files as they were, one that fails later has come to a fault of the storage itself, and
one that succeeds has created and written one file (`Storage.files_left_alone`).

A tree is exported by a program that looks at the extension of the path once more. `generate` has looked before, in the same
way, so that no run reports an extension that the export does not know (`Invocation.error_ne_unknownExtension`).

The directories in which the program runs are such storages. What can be created there can be written
(`Storage.write_of_create`), so that there every failure leaves all files as they were.
-/

namespace Arbor

/-! ## Formats -/

/-- The name of a format and the text of a tree in it, by the extension of a path. -/
inductive Tree.Rendered (t : Tree) (path : String) : (name text : String) → Prop where
  | obj (known : Path.extension? path = some "obj") : Rendered t path "OBJ (baked leaves)" (Obj.text t)
  | json (known : Path.extension? path = some "json") : Rendered t path "JSON (raw buffers)" t.toJson.pretty

theorem Format.rendered {path : String} {format : Format} (h : ofPath? path = some format) (t : Tree) :
    t.Rendered path format.name (format.render t) := by
  unfold ofPath? at h
  split at h
  next known =>
    cases h
    exact .obj known
  next known =>
    cases h
    exact .json known
  next => cases h

/-! ## The end of `generate` -/

namespace Program

/-- The ways in which the program of `generate` ends. -/
inductive Ends {σ : Type} (fs : Storage σ) (s : σ) (source : Source) (output : Option String) (ring : Option Nat) :
    Except Failure Unit × World σ → Prop where
  | stopped {f : Failure} {printed : String} (fails : source.Stopped (fs.read s) output ring f) :
    Ends fs s source output ring (.error f, ⟨s, printed⟩)
  /-- No file is asked for. -/
  | grown {p : Plan Float} {t : Tree} (grows : source.tree (fs.read s) ring = .ok (p, t)) (unasked : output = none) :
    Ends fs s source output ring (.ok (), ⟨s, countLines p.seed t.stats⟩)
  | uncreated {p : Plan Float} {t : Tree} {path name text : String} {fault : FileFault} {left : σ}
    (grows : source.tree (fs.read s) ring = .ok (p, t)) (asked : output = some path)
    (rendered : t.Rendered path name text) (fails : fs.create s path = (.error fault, left)) :
    Ends fs s source output ring (.error (.plain (.file fault)), ⟨left, countLines p.seed t.stats⟩)
  | unwritten {p : Plan Float} {t : Tree} {path name text : String} {fault : WriteFault} {created left : σ}
    (grows : source.tree (fs.read s) ring = .ok (p, t)) (asked : output = some path)
    (rendered : t.Rendered path name text) (creates : fs.create s path = (.ok (), created))
    (fails : fs.write created path text.toUTF8 = (.error fault, left)) :
    Ends fs s source output ring (.error (.plain fault.error), ⟨left, countLines p.seed t.stats⟩)
  | written {p : Plan Float} {t : Tree} {path name text : String} {created left : σ}
    (grows : source.tree (fs.read s) ring = .ok (p, t)) (asked : output = some path)
    (rendered : t.Rendered path name text) (creates : fs.create s path = (.ok (), created))
    (writes : fs.write created path text.toUTF8 = (.ok (), left)) :
    Ends fs s source output ring
      (.ok (), ⟨left, countLines p.seed t.stats ++ ("Exported " ++ name ++ " to: " ++ path ++ "\n")⟩)

variable {σ : Type} (fs : Storage σ) (s : σ)

/-- A tree whose path asks for a format is saved, and then the last line is printed. -/
theorem exec_deliver (w : World σ) (t : Tree) {path : String} {format : Format} (h : Format.ofPath? path = some format) :
    (deliver t (some path)).exec fs w =
      match (save path (format.render t)).exec fs w with
      | (.ok (), w) => (.ok (), { w with printed := w.printed ++ ("Exported " ++ format.name ++ " to: " ++ path ++ "\n") })
      | (.error f, w) => (.error f, w) := by
  have hexport : exportTree t path = save path (format.render t) := by
    unfold exportTree
    rw [h]
  unfold deliver
  dsimp only
  rw [h]
  dsimp only
  rw [exec_bind, hexport]
  rcases (save path (format.render t)).exec fs w with ⟨f | ⟨⟩, w⟩ <;> rfl

theorem exec_deliver_of_none (w : World σ) (t : Tree) {path : String} (h : Format.ofPath? path = none) :
    (deliver t (some path)).exec fs w = (.error (.unsupportedOutput path), w) := by
  unfold deliver
  dsimp only
  rw [h]
  rfl

/-- **A run that is stopped has not come to a file.** -/
theorem exec_generate_of_stopped {source : Source} {output : Option String} {ring : Option Nat} {f : Failure}
    (h : source.Stopped (fs.read s) output ring f) :
    ∃ printed, (generate source output ring).exec fs ⟨s, ""⟩ = (.error f, ⟨s, printed⟩) := by
  rw [exec_generate]
  dsimp only
  cases h with
  | ungrown fails =>
    rw [Source.tree_eq_error_iff.mpr fails]
    exact ⟨"", rfl⟩
  | output grows asked fails =>
    rw [grows, asked]
    exact ⟨_, exec_deliver_of_none fs _ _ fails⟩

/-- **The program of `generate` ends in one of these ways.** -/
theorem ends_generate (source : Source) (output : Option String) (ring : Option Nat) :
    Ends fs s source output ring ((generate source output ring).exec fs ⟨s, ""⟩) := by
  rw [exec_generate]
  dsimp only
  cases hgrown : source.tree (fs.read s) ring with
  | error f => exact .stopped (.ungrown (Source.tree_eq_error_iff.mp hgrown))
  | ok grown =>
    obtain ⟨p, t⟩ := grown
    dsimp only
    rw [String.empty_append]
    cases output with
    | none => exact .grown hgrown rfl
    | some path =>
      cases hformat : Format.ofPath? path with
      | none =>
        rw [exec_deliver_of_none fs _ _ hformat]
        exact .stopped (.output hgrown rfl hformat)
      | some format =>
        have hrendered := Format.rendered hformat t
        rw [exec_deliver fs _ _ hformat, exec_save]
        dsimp only
        cases hcreate : fs.create s path with
        | mk reply created =>
          cases reply with
          | error fault => exact .uncreated hgrown rfl hrendered hcreate
          | ok =>
            dsimp only
            cases hwrite : fs.write created path (format.render t).toUTF8 with
            | mk reply left =>
              cases reply with
              | error fault => exact .unwritten hgrown rfl hrendered hcreate hwrite
              | ok => exact .written hgrown rfl hrendered hcreate hwrite

section Codes

variable {fs s}
variable {source : Source} {output : Option String} {ring : Option Nat} {result : Except Failure Unit × World σ}

/-- A failure is one of those that leave files alone, or one of the storage itself. -/
theorem Ends.of_code_ne_zero (h : Ends fs s source output ring result) (hcode : (Ending.ofResult result).code ≠ 0) :
    (∃ f, source.Stopped (fs.read s) output ring f) ∨
      ∃ p t path name text, source.tree (fs.read s) ring = .ok (p, t) ∧ output = some path ∧ t.Rendered path name text ∧
        ((∃ fault, fs.create s path = (.error fault, (Ending.ofResult result).left) ∧
            (Ending.ofResult result).stderr = (Failure.plain (.file fault)).report) ∨
          ∃ created fault, fs.create s path = (.ok (), created) ∧
            fs.write created path text.toUTF8 = (.error fault, (Ending.ofResult result).left) ∧
            (Ending.ofResult result).stderr = (Failure.plain fault.error).report) := by
  cases h with
  | stopped fails => exact Or.inl ⟨_, fails⟩
  | grown => exact absurd rfl hcode
  | uncreated grows asked rendered fails =>
    exact Or.inr ⟨_, _, _, _, _, grows, asked, rendered, Or.inl ⟨_, fails, rfl⟩⟩
  | unwritten grows asked rendered creates fails =>
    exact Or.inr ⟨_, _, _, _, _, grows, asked, rendered, Or.inr ⟨_, _, creates, fails, rfl⟩⟩
  | written => exact absurd rfl hcode

/-- A success has created and written the file that is asked for, if there is one. -/
theorem Ends.of_code_eq_zero (h : Ends fs s source output ring result) (hcode : (Ending.ofResult result).code = 0) :
    ∃ p t, source.tree (fs.read s) ring = .ok (p, t) ∧
      ((output = none ∧ (Ending.ofResult result).left = s ∧
          (Ending.ofResult result).stdout = countLines p.seed t.stats) ∨
        ∃ path name text created, output = some path ∧ t.Rendered path name text ∧
          fs.create s path = (.ok (), created) ∧
          fs.write created path text.toUTF8 = (.ok (), (Ending.ofResult result).left) ∧
          (Ending.ofResult result).stdout =
            countLines p.seed t.stats ++ ("Exported " ++ name ++ " to: " ++ path ++ "\n")) := by
  cases h with
  | stopped | uncreated | unwritten => cases hcode
  | grown grows unasked => exact ⟨_, _, grows, Or.inl ⟨unasked, rfl, rfl⟩⟩
  | written grows asked rendered creates writes =>
    exact ⟨_, _, grows, Or.inr ⟨_, _, _, _, asked, rendered, creates, writes, rfl⟩⟩

end Codes

/-! ## No unknown extension -/

/-- An export to an unknown extension has been asked for a path without a format. -/
theorem ofPath?_of_exec_exportTree {w w' : World σ} {t : Tree} {path q : String}
    (h : (exportTree t path).exec fs w = (.error (.plain (.unknownExtension q)), w')) : Format.ofPath? path = none := by
  cases hformat : Format.ofPath? path with
  | none => rfl
  | some format =>
    unfold exportTree at h
    rw [hformat] at h
    dsimp only at h
    rw [exec_save] at h
    split at h
    next => cases h
    next =>
      split at h
      next fault _ _ => cases fault <;> cases h
      next => cases h

end Program

section Runs

variable {σ : Type} (fs : Storage σ) (s : σ)

/-- **No program of an invocation fails with an unknown extension.** -/
theorem Invocation.error_ne_unknownExtension {i : Invocation} {f : Failure} {w : World σ}
    (h : i.program.exec fs ⟨s, ""⟩ = (.error f, w)) (q : String) : f.error? ≠ some (.unknownExtension q) := by
  cases i with
  | version => cases h
  | help => cases h
  | presets =>
    obtain ⟨⟨name, -, hline⟩, -⟩ := Program.exec_forM_say_error fs h
    rw [Program.presetLine_eq_error hline]
    nofun
  | sentence source =>
    have hsentence := (Program.exec_sentence fs ⟨s, ""⟩ source).symm.trans h
    dsimp only at hsentence
    cases hgrow : source.grow (fs.read s) with
    | ok grown =>
      rw [hgrow] at hsentence
      cases hsentence
    | error g =>
      rw [hgrow] at hsentence
      cases hsentence
      exact (Source.grow_eq_error_iff.mp hgrow).error_ne q
  | generate source output ring =>
    have hends := Program.ends_generate fs s source output ring
    rw [show (Program.generate source output ring).exec fs ⟨s, ""⟩ = _ from h] at hends
    cases hends with
    | stopped fails => exact fails.error_ne q
    | uncreated => nofun
    | @unwritten _ _ _ _ _ fault => cases fault <;> nofun

namespace Storage

/-- No run reports an unknown extension. -/
theorem stderr_runArgs_ne (args : List String) (q : String) :
    (fs.runArgs s args).stderr ≠ (Failure.plain (.unknownExtension q)).report := by
  -- all reports start with the same letter, so that this text is no other one
  have hother {text : String} (h : text.toList.head? ≠ some 'E') :
      text ≠ (Failure.plain (.unknownExtension q)).report := fun heq => h (heq ▸ Failure.head?_report _)
  unfold runArgs
  cases Invocation.parse? args with
  | none =>
    have husage : Program.usage.toList.head? = some 'U' :=
      String.head?_toList_append (String.head?_toList_append (String.head?_toList_append rfl))
    exact hother (by rw [husage]; decide)
  | some i =>
    show (Ending.ofResult (i.program.exec fs ⟨s, ""⟩)).stderr ≠ _
    cases hexec : i.program.exec fs ⟨s, ""⟩ with
    | mk result w =>
      cases result with
      | ok => exact hother nofun
      | error f => exact Failure.report_ne_unknownExtension (Invocation.error_ne_unknownExtension fs s hexec) q

theorem runArgs_of_parse {args : List String} {i : Invocation} (h : Invocation.parse? args = some i) :
    fs.runArgs s args = fs.run s i := by
  unfold runArgs
  rw [h]

end Storage

end Runs

/-! ## Files of a directory -/

namespace Storage

variable {d left created : Directory} {path : String} {content : ByteArray}

theorem create_directory_eq_ok : directory.create d path = (.ok (), created) ↔ d.write path .empty = .ok created := by
  unfold directory
  dsimp only
  cases d.write path .empty <;> simp

/-- A directory in which nothing can be created is left as it was. -/
theorem create_directory_eq_error {fault : FileFault} (h : directory.create d path = (.error fault, left)) : left = d := by
  unfold directory at h
  dsimp only at h
  cases hwrite : d.write path .empty with
  | ok => rw [hwrite] at h; cases h
  | error => rw [hwrite] at h; cases h; rfl

/-- **What has been created in a directory is written,** under the file name of the path, and nothing else is changed. -/
theorem write_of_create (h : directory.create d path = (.ok (), created)) (content : ByteArray) :
    ∃ name, Path.fileName? path = some name ∧ directory.write created path content = (.ok (), d.put name content) ∧
      (d.put name content).find? name = some content ∧ (d.put name content).read path = .ok content ∧
      ∀ other ≠ name, (d.put name content).find? other = d.find? other := by
  obtain ⟨name, htarget, rfl⟩ := Directory.write_eq_ok_iff.mp (create_directory_eq_ok.mp h)
  -- where a path leads does not depend on the files
  have hagain : (d.put name .empty).target path = .ok name :=
    Directory.target_eq_ok_iff.mpr (Directory.target_eq_ok_iff.mp htarget)
  have hwrite : (d.put name .empty).write path content = .ok (d.put name content) :=
    Directory.write_eq_ok_iff.mpr ⟨name, hagain, Directory.put_put⟩
  refine ⟨name, Directory.fileName?_of_target htarget, ?_, Directory.find?_put_self, Directory.read_put htarget,
    fun _ hother => Directory.find?_put_of_ne hother⟩
  unfold directory
  dsimp only
  rw [hwrite]

/-- The program of any invocation that fails leaves a directory as it was. -/
theorem files_of_exec_eq_error {i : Invocation} {f : Failure} {w : World Directory}
    (h : i.program.exec directory ⟨d, ""⟩ = (.error f, w)) : w.files = d := by
  cases i with
  | version => cases h
  | help => cases h
  | presets => exact (Program.exec_forM_say_error directory h).2
  | sentence source =>
    have hsentence := (Program.exec_sentence directory ⟨d, ""⟩ source).symm.trans h
    split at hsentence
    next =>
      cases hsentence
      rfl
    next => cases hsentence
  | generate source output ring =>
    have hends := Program.ends_generate directory d source output ring
    rw [show (Program.generate source output ring).exec directory ⟨d, ""⟩ = _ from h] at hends
    cases hends with
    | stopped => rfl
    | uncreated _ _ _ fails => exact create_directory_eq_error fails
    | unwritten _ _ _ creates fails =>
      obtain ⟨_, -, hwritten, -⟩ := write_of_create creates _
      cases hwritten.symm.trans fails

/-- A run that fails leaves a directory as it was. -/
theorem left_of_code_ne_zero {args : List String} (h : (directory.runArgs d args).code ≠ 0) :
    (directory.runArgs d args).left = d := by
  revert h
  unfold runArgs
  cases Invocation.parse? args with
  | none => exact fun _ => rfl
  | some i =>
    show (Ending.ofResult (i.program.exec directory ⟨d, ""⟩)).code ≠ 0 →
      (Ending.ofResult (i.program.exec directory ⟨d, ""⟩)).left = d
    cases hexec : i.program.exec directory ⟨d, ""⟩ with
    | mk result w =>
      cases result with
      | ok => exact fun h => absurd rfl h
      | error => exact fun _ => files_of_exec_eq_error hexec

/-- **A run of `generate` that fails leaves files alone.** In a storage of any kind it ends with all as it was if it is
stopped, that is if the definition cannot be read, parsed or accepted, the preset has no name, the plan is not accepted
with what replaces parts of it, the sentence is too long, or the path asks for no format; arguments that cannot be read
change nothing either. Otherwise it fails with what the storage reports when the file is created, or when it is written once
that has succeeded. A run that succeeds with a path has created this path and then written it, once each, with the text of
the tree in the format that the last line names, and one without a path has done neither. Where an export would meet an
unknown extension the run has been stopped before, no program of an invocation fails with one, and no run reports one.

The directories in which the program runs are among the storages. There every failure leaves all files as they were. After
a success the text is found under the file name of the path and is read back by the path, and all other files are as they
were. -/
theorem files_left_alone :
    (∀ {σ : Type} (fs : Storage σ) (s : σ) (source : Source) (output : Option String) (ring : Option Nat),
      let ending := fs.run s (.generate source output ring)
      (∀ f, source.Stopped (fs.read s) output ring f →
        ending.code = 1 ∧ ending.stderr = f.report ∧ ending.left = s) ∧
      (ending.code ≠ 0 → (∃ f, source.Stopped (fs.read s) output ring f) ∨
        ∃ p t path name text, source.tree (fs.read s) ring = .ok (p, t) ∧ output = some path ∧
          t.Rendered path name text ∧
          ((∃ fault, fs.create s path = (.error fault, ending.left) ∧
              ending.stderr = (Failure.plain (.file fault)).report) ∨
            ∃ created fault, fs.create s path = (.ok (), created) ∧
              fs.write created path text.toUTF8 = (.error fault, ending.left) ∧
              ending.stderr = (Failure.plain fault.error).report)) ∧
      (ending.code = 0 → ∃ p t, source.tree (fs.read s) ring = .ok (p, t) ∧
        ((output = none ∧ ending.left = s ∧ ending.stdout = Program.countLines p.seed t.stats) ∨
          ∃ path name text created, output = some path ∧ t.Rendered path name text ∧
            fs.create s path = (.ok (), created) ∧
            fs.write created path text.toUTF8 = (.ok (), ending.left) ∧
            ending.stdout =
              Program.countLines p.seed t.stats ++ ("Exported " ++ name ++ " to: " ++ path ++ "\n"))) ∧
      ∀ p t path q w w', source.tree (fs.read s) ring = .ok (p, t) → output = some path →
        (Program.exportTree t path).exec fs w = (.error (.plain (.unknownExtension q)), w') →
        source.Stopped (fs.read s) output ring (.unsupportedOutput path)) ∧
    (∀ {σ : Type} (fs : Storage σ) (s : σ) (args : List String),
      (Invocation.parse? args = none → (fs.runArgs s args).left = s) ∧
      ∀ q, (∀ i w, (Invocation.program i).exec fs ⟨s, ""⟩ ≠ (.error (.plain (.unknownExtension q)), w)) ∧
        (fs.runArgs s args).stderr ≠ (Failure.plain (.unknownExtension q)).report) ∧
    ∀ (d : Directory) (args : List String),
      let ending := directory.runArgs d args
      (ending.code ≠ 0 → ending.left = d) ∧
      ∀ source path ring, Invocation.parse? args = some (.generate source (some path) ring) → ending.code = 0 →
        ∃ p t name text file, source.tree d.read ring = .ok (p, t) ∧ t.Rendered path name text ∧
          ending.stdout = Program.countLines p.seed t.stats ++ ("Exported " ++ name ++ " to: " ++ path ++ "\n") ∧
          Path.fileName? path = some file ∧ ending.left.find? file = some text.toUTF8 ∧
          ending.left.read path = .ok text.toUTF8 ∧
          ∀ other ≠ file, ending.left.find? other = d.find? other := by
  refine ⟨fun fs s source output ring => ?_, fun fs s args => ⟨fun hparse => ?_, fun q =>
      ⟨fun i w hfails => Invocation.error_ne_unknownExtension fs s hfails q rfl, fs.stderr_runArgs_ne s args q⟩⟩,
    fun d args => ⟨left_of_code_ne_zero, fun source path ring hparse hcode => ?_⟩⟩
  · have hends : Program.Ends fs s source output ring
        ((Invocation.generate source output ring).program.exec fs ⟨s, ""⟩) := Program.ends_generate fs s source output ring
    refine ⟨fun f hf => ?_, hends.of_code_ne_zero, hends.of_code_eq_zero, fun p t path q w w' hgrown hasked hexport =>
      .output hgrown hasked (Program.ofPath?_of_exec_exportTree fs hexport)⟩
    obtain ⟨printed, hexec⟩ := Program.exec_generate_of_stopped fs s hf
    have hrun : fs.run s (.generate source output ring) = ⟨1, printed, f.report, s⟩ := congrArg Ending.ofResult hexec
    rw [hrun]
    exact ⟨rfl, rfl, rfl⟩
  · unfold runArgs
    rw [hparse]
  · rw [runArgs_of_parse directory d hparse] at hcode ⊢
    have hends := Program.ends_generate directory d source (some path) ring
    obtain ⟨p, t, hgrown, ⟨hnone, -⟩ | ⟨_, name, text, created, hpath, hrendered, hcreate, hwrite, hprinted⟩⟩ :=
      hends.of_code_eq_zero hcode
    · cases hnone
    · obtain rfl := Option.some.inj hpath
      obtain ⟨file, hfile, hagain, hfiles⟩ := write_of_create hcreate text.toUTF8
      have hleft : (directory.run d (.generate source (some path) ring)).left = d.put file text.toUTF8 :=
        congrArg Prod.snd (hwrite.symm.trans hagain)
      rw [hleft]
      exact ⟨p, t, name, text, file, hgrown, hrendered, hprinted, hfile, hfiles⟩

/-- In an empty directory, a preset without a name leaves no file behind, and a bush leaves one with its mesh. -/
theorem files_left_alone_bush :
    (directory.runArgs .empty ["generate", "-p", "elm", "-o", "tree.obj"]).left = .empty ∧
    ∃ t, (directory.runArgs .empty ["generate", "-p", "bush", "-o", "tree.obj"]).left.find? "tree.obj" =
      some (Obj.text t).toUTF8 := by
  obtain ⟨hstorage, -, hdirectory⟩ := files_left_alone
  have helm : Invocation.parse? ["generate", "-p", "elm", "-o", "tree.obj"] =
      some (.generate ⟨some "elm", none, none, none⟩ (some "tree.obj") none) := by decide +kernel
  have hbush : Invocation.parse? ["generate", "-p", "bush", "-o", "tree.obj"] =
      some (.generate ⟨some "bush", none, none, none⟩ (some "tree.obj") none) := by decide +kernel
  have hextension : Path.extension? "tree.obj" = some "obj" := by decide +kernel
  constructor
  · refine (hdirectory _ _).1 ?_
    rw [runArgs_of_parse _ _ helm, ((hstorage directory .empty _ _ _).1 _ (.ungrown (.preset rfl (by decide)))).1]
    decide
  · have hname : "bush" ∈ Preset.names := by decide
    obtain ⟨grown, hgrown⟩ := Source.exists_tree_of_preset Directory.empty.read hname none
    have hsuccess : (directory.runArgs .empty ["generate", "-p", "bush", "-o", "tree.obj"]).code = 0 := by
      rw [runArgs_of_parse _ _ hbush]
      by_contra hfails
      have hcreate : directory.create .empty "tree.obj" = (.ok (), Directory.empty.put "tree.obj" .empty) :=
        create_directory_eq_ok.mpr (Directory.write_eq_ok_iff.mpr ⟨"tree.obj", by decide +kernel, rfl⟩)
      rcases (hstorage directory .empty _ _ _).2.1 hfails with
        ⟨f, hf⟩ | ⟨_, _, path, _, text, -, hpath, -, ⟨fault, huncreated, -⟩ | ⟨created, fault, hcreated, hunwritten, -⟩⟩
      · cases hf with
        | ungrown fails => cases hgrown.symm.trans (Source.tree_eq_error_iff.mpr fails)
        | output _ asked fails =>
          cases asked
          exact absurd fails (by decide +kernel)
      · cases hpath
        cases hcreate.symm.trans huncreated
      · cases hpath
        obtain ⟨_, -, hwrite, -⟩ := write_of_create hcreated text.toUTF8
        cases hwrite.symm.trans hunwritten
    obtain ⟨p, t, name, text, file, -, hrendered, -, hfile, hfound, -⟩ := (hdirectory _ _).2 _ _ _ hbush hsuccess
    obtain rfl : "tree.obj" = file := Option.some.inj ((show some "tree.obj" = _ by decide +kernel).trans hfile)
    cases hrendered with
    | obj => exact ⟨t, hfound⟩
    | json known => exact absurd (hextension.symm.trans known) (by decide)

end Storage

end Arbor
