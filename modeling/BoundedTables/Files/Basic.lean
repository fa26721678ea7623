import BoundedTables.Decimal.Text
import BoundedTables.Files.Path

/-!
# Files

What the rest of the library asks of a file system: what stands at a path, making a directory and
writing a text. The file system is a value, so that everything that works on files also works on
a `FileStore`, which holds its files itself.
-/

namespace BoundedTables

open Decimal

/-- What stands at a path. -/
inductive Entry where
  | absent
  | directory
  | file (text : String)
  /-- A file whose text cannot be read. -/
  | unreadable
  deriving DecidableEq, Repr

/-- Why a file system refuses, with the number of the reason where it has one. -/
structure FileError where
  code : Option Nat
  reason : String
  deriving DecidableEq, Repr

namespace FileError

/-- Nothing stands at the path. -/
def absent : FileError := ⟨some 2, "No such file or directory"⟩

/-- Something stands at the path already. -/
def exists_ : FileError := ⟨some 17, "File exists"⟩

/-- A step of the path goes through a file. -/
def notDirectory : FileError := ⟨some 20, "Not a directory"⟩

/-- A directory stands where a file is needed. -/
def isDirectory : FileError := ⟨some 21, "Is a directory"⟩

/-- The path, or a name in it, is too long. -/
def tooLong : FileError := ⟨some 36, "File name too long"⟩

/-- The path holds a null character. -/
def nullCharacter : FileError := ⟨none, "file name contained an unexpected NUL byte"⟩

/-- The wording of a refusal. -/
def message (e : FileError) : String :=
  match e.code with
  | some code => e.reason ++ " (os error " ++ natText code ++ ")"
  | none => e.reason

end FileError

/-- Access to files, with the effects of `m`. -/
structure FileSystem (m : Type → Type) where
  look : String → m Entry
  makeDirectory : String → m (Except FileError Unit)
  write : String → String → m (Except FileError Unit)

namespace FileSystem

variable {m : Type → Type} [Monad m]

/-- Make a directory where none stands. -/
def ensureDirectory (fs : FileSystem m) (path : String) : m (Except FileError Unit) := do
  match ← fs.makeDirectory path with
  | .ok () => pure (.ok ())
  | .error e =>
      match ← fs.look path with
      | .directory => pure (.ok ())
      | _ => pure (.error e)

/-- Make a directory with all folders around it, as far as they are missing. At most `depth` of
them are made. -/
def makeDirectoriesWithin (fs : FileSystem m) : Nat → String → m (Except FileError Unit)
  | 0, path => fs.ensureDirectory path
  | depth + 1, path =>
      if path = "" then pure (.ok ())
      else do
        match ← fs.ensureDirectory path with
        | .ok () => pure (.ok ())
        | .error e =>
            if e = .absent then
              match Path.parent? path with
              | none => pure (.error e)
              | some parent =>
                  match ← fs.makeDirectoriesWithin depth parent with
                  | .ok () => fs.ensureDirectory path
                  | .error e => pure (.error e)
            else pure (.error e)

/-- Make a directory with all folders around it, as far as they are missing. The folder around a
single name is there already. -/
def makeDirectories (fs : FileSystem m) (path : String) : m (Except FileError Unit) :=
  fs.makeDirectoriesWithin (path.length + 1) path

end FileSystem

end BoundedTables
