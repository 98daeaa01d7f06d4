import Arbor.CommandLine.Subcommand

/-!
# The program

Carries out the program of the arguments on the files of the system.
-/

namespace Arbor

/-- The number of a system error, which may come with either sign. -/
def errorNumber (code : UInt32) : UInt32 := if code < 0x80000000 then code else 0 - code

/-- The fault that a failed access to a file stands for. -/
def FileFault.ofError : IO.Error → FileFault
  | .noFileOrDirectory _ _ _ => .missing
  | .inappropriateType _ code _ => if errorNumber code = 20 then .notDirectory else .isDirectory
  | e@(.invalidArgument _ code _) => if errorNumber code = 36 then .nameTooLong else .other (toString e)
  | e => .other (toString e)

/-- The content of a file. -/
def readFile (path : String) : IO (Except FileFault ByteArray) := do
  try return .ok (← IO.FS.readBinFile path)
  catch e => return .error (.ofError e)

/-- Makes an empty file, in place of the one that is there. -/
def createFile (path : String) : IO (Except FileFault Unit) := do
  try
    discard (IO.FS.Handle.mk path .write)
    return .ok ()
  catch e => return .error (.ofError e)

/-- Gives a file its content. -/
def writeFile (path : String) (content : ByteArray) : IO (Except WriteFault Unit) := do
  try
    IO.FS.writeBinFile path content
    return .ok ()
  catch e => return .error (.file (.ofError e))

/-- Carries out a program. -/
def Program.perform {β : Type} : Program β → IO (Except Failure β)
  | done value => return .ok value
  | fail failure => return .error failure
  | read path next => do (next (← readFile path)).perform
  | print text next => do
    IO.print text
    next.perform
  | create path next => do (next (← createFile path)).perform
  | write path content next => do (next (← writeFile path content)).perform

end Arbor

open Arbor in
/-- Runs the program. -/
def main (args : List String) : IO UInt32 := do
  match Invocation.parse? args with
  | none =>
    IO.eprint Program.usage
    return 2
  | some invocation =>
    match ← invocation.program.perform with
    | .ok () => return 0
    | .error failure =>
      IO.eprint failure.report
      return 1
