import Arbor.CommandLine.Failure
import Arbor.Storage

/-!
# Programs

A program is a value that says what is to be done, one effect after another: files are read, created and written, texts are
printed, and each reply decides how it goes on. `Program.exec` carries it out in a storage; every effect happens where the
program comes to it, and none is taken back if it fails later.
-/

namespace Arbor

/-- A program that ends with a value, unless it fails. -/
inductive Program (β : Type) where
  | done (value : β)
  | fail (failure : Failure)
  | read (path : String) (next : Except FileFault ByteArray → Program β)
  | print (text : String) (next : Program β)
  | create (path : String) (next : Except FileFault Unit → Program β)
  | write (path : String) (content : ByteArray) (next : Except WriteFault Unit → Program β)

/-- All that a program can change: the files, and the text that has been printed. -/
structure World (σ : Type) where
  files : σ
  printed : String

namespace Program

variable {β γ σ : Type}

/-- One program, and then another that starts with its value. -/
def bind (p : Program β) (rest : β → Program γ) : Program γ :=
  match p with
  | done value => rest value
  | fail failure => .fail failure
  | read path next => .read path fun reply => (next reply).bind rest
  | print text next => .print text (next.bind rest)
  | create path next => .create path fun reply => (next reply).bind rest
  | write path content next => .write path content fun reply => (next reply).bind rest

instance : Monad Program where
  pure := done
  bind := bind

/-- A result, or the failure in its place. -/
def ofExcept : Except Failure β → Program β
  | .ok value => .done value
  | .error failure => .fail failure

/-- Prints a text. -/
def say (text : String) : Program Unit := .print text (.done ())

/-- Creates a file and gives it a content. -/
def save (path content : String) : Program Unit :=
  .create path fun created => do
    ofExcept (created.mapError fun fault => .plain (.file fault))
    .write path content.toUTF8 fun written => ofExcept (written.mapError fun fault => .plain fault.error)

/-- Carries out a program. -/
def exec (fs : Storage σ) : Program β → World σ → Except Failure β × World σ
  | done value, w => (.ok value, w)
  | fail failure, w => (.error failure, w)
  | read path next, w => (next (fs.read w.files path)).exec fs w
  | print text next, w => next.exec fs { w with printed := w.printed ++ text }
  | create path next, w =>
    let (reply, files) := fs.create w.files path
    (next reply).exec fs { w with files := files }
  | write path content next, w =>
    let (reply, files) := fs.write w.files path content
    (next reply).exec fs { w with files := files }

end Program

end Arbor
