import Arbor.Directory
import Arbor.Proofs.Refusal

/-!
# Files that are written and read back

A path to which a file can be written never leaves the directory that it starts from: all its parts but the last are
`.`, and the last one is the name of the file (`Directory.target_eq_ok_iff`). Hence what is found on the way does not
depend on the files, the new content is read back by the same path (`Directory.read_put`), and all other files are as
they were (`Directory.find?_put_of_ne`).
-/

namespace Arbor

namespace Directory

variable {d : Directory} {name other path : String} {content : ByteArray}

/-! ## One file -/

theorem find?_put_self : (d.put name content).find? name = some content := by
  unfold find? put
  rw [List.find?_cons_of_pos (by simp)]
  rfl

/-- All files of other names are left as they are. -/
theorem find?_put_of_ne (h : other ≠ name) : (d.put name content).find? other = d.find? other := by
  unfold find? put
  rw [List.find?_cons_of_neg (by simpa using h.symm), List.find?_filter]
  congr 2
  funext file
  by_cases hother : file.1 = other
  · simp [hother, h]
  · simp [hother]

/-- The content that a file was given last is the one that it has. -/
theorem put_put {earlier : ByteArray} : (d.put name earlier).put name content = d.put name content := by
  unfold put
  rw [List.filter_cons_of_neg (by simp), List.filter_filter]
  simp only [Bool.and_self]

/-! ## Ways through a directory -/

theorem walk_cons (p : Place) (part : String) (parts : List String) :
    d.walk p (part :: parts) = d.step p part >>= fun q => d.walk q parts := List.foldlM_cons

/-- A name leads to no directory. -/
theorem lookup_ne_home : d.lookup name ≠ .ok .home := by
  unfold lookup
  cases d.find? name <;> nofun

/-- Only the part that leads nowhere ends in the directory that it starts from. -/
theorem step_eq_home_iff {p : Place} {part : String} : d.step p part = .ok .home ↔ p = .home ∧ part = "." := by
  constructor
  · intro h
    cases p with
    | file content => cases h
    | above =>
      simp only [step] at h
      split at h
      · cases h
      · split at h
        · cases h
        · split at h
          · cases h
          · cases h
    | home =>
      refine ⟨rfl, ?_⟩
      simp only [step] at h
      split at h
      · next hpart => exact eq_of_beq hpart
      · split at h
        · cases h
        · split at h
          · cases h
          · exact absurd h lookup_ne_home
  · rintro ⟨rfl, rfl⟩
    rfl

/-- A way that ends in the directory has gone nowhere, whatever the files are. -/
theorem walk_eq_home_iff {p : Place} {parts : List String} :
    d.walk p parts = .ok .home ↔ p = .home ∧ ∀ part ∈ parts, part = "." := by
  induction parts generalizing p with
  | nil =>
    constructor
    · rintro ⟨⟩
      exact ⟨rfl, nofun⟩
    · rintro ⟨rfl, -⟩
      rfl
  | cons part parts ih =>
    rw [walk_cons, List.forall_mem_cons, ← and_assoc, ← step_eq_home_iff (d := d)]
    cases hstep : d.step p part with
    | error fault => exact iff_of_false nofun nofun
    | ok q =>
      refine ih.trans ?_
      rw [Except.ok.injEq]

/-! ## Ways to a file -/

/-- **A file is written under the last part of its path, and no part before it leads anywhere.** -/
theorem target_eq_ok_iff : d.target path = .ok name ↔ Path.check path = .ok () ∧ Place.start path = .home ∧
    (∃ before, Path.parts path = before ++ [name] ∧ ∀ part ∈ before, part = ".") ∧
    name ≠ "." ∧ name ≠ ".." ∧ Path.endsInSlash path = false ∧ name.utf8ByteSize ≤ Path.maxName := by
  unfold target
  rw [Except.check_bind_eq_ok]
  refine and_congr_right fun _ => ?_
  dsimp only
  rcases List.eq_nil_or_concat (Path.parts path) with hparts | ⟨before, last, hparts⟩
  · rw [hparts]
    refine iff_of_false (fun h => ?_) fun ⟨_, ⟨_, h, _⟩, _⟩ => nomatch List.append_eq_nil_iff.mp h.symm
    cases hstart : Place.start path <;> rw [hstart] at h <;> cases h
  rw [hparts, List.concat_eq_append, List.dropLast_concat, List.getLast?_concat]
  constructor
  · intro h
    cases hwalk : d.walk (.start path) before with
    | error fault => rw [hwalk] at h; cases h
    | ok p =>
      rw [hwalk] at h
      cases p with
      | file content => cases h
      | above =>
        -- nothing is written outside, whatever the last part is
        have hnot := (Except.ite_error_eq_ok.mp (Except.ite_error_eq_ok.mp h).2).2
        cases hnot
      | home =>
        obtain ⟨hdirectory, h⟩ := Except.ite_error_eq_ok.mp h
        obtain ⟨hsize, h⟩ := Except.ite_error_eq_ok.mp h
        obtain rfl := Except.ok.inj h
        simp only [Bool.or_eq_true, beq_iff_eq, not_or, Bool.not_eq_true] at hdirectory
        obtain ⟨hstart, hbefore⟩ := walk_eq_home_iff.mp hwalk
        exact ⟨hstart, ⟨before, rfl, hbefore⟩, hdirectory.1.1, hdirectory.1.2, hdirectory.2, Nat.not_lt.mp hsize⟩
  · rintro ⟨hstart, ⟨before', heq, hbefore⟩, hdot, hdots, hslash, hsize⟩
    obtain ⟨rfl, rfl⟩ := List.append_singleton_inj.mp heq
    rw [walk_eq_home_iff.mpr ⟨hstart, hbefore⟩]
    exact Except.ite_error_eq_ok.mpr ⟨by simp [hdot, hdots, hslash],
      Except.ite_error_eq_ok.mpr ⟨Nat.not_lt.mpr hsize, rfl⟩⟩

/-- The last part of the path is its file name. -/
theorem fileName?_of_target (h : d.target path = .ok name) : Path.fileName? path = some name := by
  obtain ⟨-, -, ⟨before, hparts, -⟩, hdot, hdots, -⟩ := target_eq_ok_iff.mp h
  unfold Path.fileName?
  rw [hparts, List.filter_append, List.filter_cons_of_pos (by simpa using hdot), List.filter_nil, List.getLast?_concat]
  simp [hdots]

theorem write_eq_ok_iff {written : Directory} : d.write path content = .ok written ↔
    ∃ name, d.target path = .ok name ∧ d.put name content = written := Except.bind_pure_eq_ok

/-- **What is written is read back by the same path.** -/
theorem read_put (h : d.target path = .ok name) : (d.put name content).read path = .ok content := by
  obtain ⟨hcheck, hstart, ⟨before, hparts, hbefore⟩, hdot, hdots, hslash, hsize⟩ := target_eq_ok_iff.mp h
  have hstep : (d.put name content).step .home name = .ok (.file content) := by
    simp only [step]
    rw [if_neg (by simpa using hdot), if_neg (by simpa using hdots), if_neg (Nat.not_lt.mpr hsize)]
    unfold lookup
    rw [find?_put_self]
  have hwalk : (d.put name content).walk .home (before ++ [name]) = .ok (.file content) := by
    -- the way to the last part meets no file, so the new one cannot be in its way
    have hhome : (d.put name content).walk .home before = .ok .home := walk_eq_home_iff.mpr ⟨rfl, hbefore⟩
    unfold walk at hhome ⊢
    rw [List.foldlM_append, hhome]
    show (d.put name content).step .home name >>= pure = _
    rw [hstep]
    rfl
  unfold read
  rw [hcheck, hstart, hparts, hwalk]
  exact if_neg (by rw [hslash]; exact Bool.false_ne_true)

end Directory
end Arbor
