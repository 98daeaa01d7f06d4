import Arbor.Directory
import Arbor.Error

/-!
# Storages

Whatever keeps files and tells how an access to one has ended. A file is made or emptied first and written then, in two
accesses of which either may fail. A directory is such a storage (`Storage.directory`).
-/

namespace Arbor

/-- What a writer reports of a file that has been created. -/
inductive WriteFault where
  | file (fault : FileFault)
  | json (fault : JsonFault)
deriving DecidableEq, Repr

/-- The error that a writer reports. -/
def WriteFault.error : WriteFault → Error Float
  | file fault => .file fault
  | json fault => .json fault

/-- How a file is looked up. -/
abbrev Lookup := String → Except FileFault ByteArray

/-- A place where files are kept. Looking one up changes nothing; whatever else is done may leave anything behind. -/
structure Storage (σ : Type) where
  read : σ → Lookup
  /-- Makes an empty file, in place of the one that is there. -/
  create : σ → String → Except FileFault Unit × σ
  /-- Gives a created file its content. -/
  write : σ → String → ByteArray → Except WriteFault Unit × σ

namespace Storage

/-- A directory, which an access that fails leaves as it was. -/
def directory : Storage Directory where
  read := Directory.read
  create d path :=
    match d.write path .empty with
    | .ok created => (.ok (), created)
    | .error fault => (.error fault, d)
  write d path content :=
    match d.write path content with
    | .ok written => (.ok (), written)
    | .error fault => (.error (.file fault), d)

end Storage

end Arbor
