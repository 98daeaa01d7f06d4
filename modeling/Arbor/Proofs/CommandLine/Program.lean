import Arbor.CommandLine.Subcommand

/-!
# What programs do

A program that is followed by another one either hands its value and its world on, or ends both (`Program.exec_bind`). The
effects of the programs that others are made of are told from this: a result changes nothing, a text is printed behind the
others, and a file is created before it is written (`Program.exec_save`).
-/

namespace Arbor
namespace Program

variable {β γ σ : Type} (fs : Storage σ) (w : World σ)

/-- **One program goes on where the other has ended.** -/
theorem exec_bind (p : Program β) (rest : β → Program γ) : (p >>= rest).exec fs w =
    match p.exec fs w with
    | (.ok value, w) => (rest value).exec fs w
    | (.error failure, w) => (.error failure, w) := by
  induction p generalizing w with
  | done | fail => rfl
  | read path next ih => exact ih _ _
  | print text next ih => exact ih _
  | create path next ih => exact ih _ _
  | write path content next ih => exact ih _ _

theorem exec_ofExcept (x : Except Failure β) : (ofExcept x).exec fs w = (x, w) := by cases x <;> rfl

theorem exec_create (path : String) (next : Except FileFault Unit → Program β) : (create path next).exec fs w =
    (next (fs.create w.files path).1).exec fs { w with files := (fs.create w.files path).2 } := rfl

theorem exec_write (path : String) (content : ByteArray) (next : Except WriteFault Unit → Program β) :
    (write path content next).exec fs w =
      (next (fs.write w.files path content).1).exec fs { w with files := (fs.write w.files path content).2 } := rfl

theorem exec_say_bind (text : String) (rest : Unit → Program β) :
    (say text >>= rest).exec fs w = (rest ()).exec fs { w with printed := w.printed ++ text } := rfl

/-- **A file is created, and written only once that has succeeded.** -/
theorem exec_save (path content : String) : (save path content).exec fs w =
    match fs.create w.files path with
    | (.error fault, left) => (.error (.plain (.file fault)), { w with files := left })
    | (.ok (), created) =>
      match fs.write created path content.toUTF8 with
      | (.error fault, left) => (.error (.plain fault.error), { w with files := left })
      | (.ok (), left) => (.ok (), { w with files := left }) := by
  unfold save
  rw [exec_create]
  rcases fs.create w.files path with ⟨fault | ⟨⟩, created⟩
  · rfl
  · rw [exec_bind, exec_ofExcept]
    dsimp only [Except.mapError]
    rw [exec_write]
    dsimp only
    rcases fs.write created path content.toUTF8 with ⟨fault | ⟨⟩, left⟩ <;> rfl

/-- A row of programs that print a line each fails with the first line that there is not, and leaves files alone. -/
theorem exec_forM_say_error {line : β → Except Failure String} {f : Failure} {w' : World σ} :
    ∀ {xs : List β} {w : World σ},
      (xs.forM fun x => do say (← ofExcept (line x)) : Program Unit).exec fs w = (.error f, w') →
        (∃ x ∈ xs, line x = .error f) ∧ w'.files = w.files
  | [], _, h => nomatch congrArg Prod.fst h
  | x :: xs, w, h => by
    rw [List.forM_eq_forM, List.forM_cons, exec_bind, exec_bind, exec_ofExcept] at h
    cases hline : line x with
    | error f' =>
      rw [hline] at h
      cases h
      exact ⟨⟨x, List.mem_cons_self, hline⟩, rfl⟩
    | ok text =>
      rw [hline] at h
      obtain ⟨⟨y, hy, hfails⟩, hfiles⟩ := exec_forM_say_error h
      exact ⟨⟨y, List.mem_cons_of_mem x hy, hfails⟩, hfiles⟩

end Program
end Arbor
