import BoundedTables.Files.Basic

/-!
# File stores

A file system as a value: the files and directories below a working directory, by the names that
lead to them. Paths are resolved name by name; every name but the last must be that of a
directory. Paths from the root lead nowhere, and the working directory is its own parent.
-/

namespace BoundedTables

/-- The names that lead from the working directory to a file or a directory. -/
abbrev Place := List String

/-- Files with their texts, and directories. The working directory itself is not listed. -/
structure FileStore where
  entries : List (Place × Entry)

namespace FileStore

/-- A store without files. -/
def empty : FileStore := ⟨[]⟩

/-- What stands at a place. -/
def entryAt (s : FileStore) (place : Place) : Entry :=
  if place = [] then .directory else (s.entries.lookup place).getD .absent

/-- Let something stand at a place. -/
def put (s : FileStore) (place : Place) (e : Entry) : FileStore :=
  ⟨(place, e) :: s.entries.filter fun f => f.1 != place⟩

/-- The bytes that a name may have. -/
def maxName : Nat := 255

/-- The bytes that a path may have. -/
def maxPath : Nat := 4095

/-- Whether a path starts at the root. -/
def isRooted (path : String) : Bool := path.toList.head? == some '/'

/-- Whether a path ends with a separator. -/
def endsOpen (path : String) : Bool := path.toList.getLast? == some '/'

/-- The names of a path. -/
def names (path : String) : List String :=
  ((path.toList.splitOn '/').filter (· ≠ [])).map String.ofList

/-- Follow names from a place. What stands behind the last one is not looked at. -/
def walk (s : FileStore) (place : Place) : List String → Except FileError Place
  | [] => .ok place
  | name :: rest =>
      match s.entryAt place with
      | .absent => .error .absent
      | .directory =>
          if name = "." then s.walk place rest
          else if name = ".." then s.walk place.dropLast rest
          else if maxName < name.utf8ByteSize then .error .tooLong
          else s.walk (place ++ [name]) rest
      | _ => .error .notDirectory

/-- Whether a path can lead anywhere at all. -/
def checkPath (path : String) : Except FileError Unit :=
  if path = "" then .error .absent
  else if path.toList.contains (Char.ofNat 0) then .error .nullCharacter
  else if maxPath < path.utf8ByteSize then .error .tooLong
  else .ok ()

/-- What stands at a path. -/
def look (s : FileStore) (path : String) : Entry :=
  match checkPath path with
  | .error _ => .absent
  | .ok () =>
      if isRooted path then if names path = [] then .directory else .absent
      else
        match s.walk [] (names path ++ if endsOpen path then ["."] else []) with
        | .error _ => .absent
        | .ok place => s.entryAt place

/-- The place of something that may still have to be made, in a directory that stands already.
There is none for a path that ends in a step up or stays in place. -/
def target (s : FileStore) (path : String) : Except FileError (Option Place) := do
  checkPath path
  let ns := names path
  if isRooted path then
    if ns = [] then pure none else throw .absent
  else
    match ns.getLast? with
    | none => pure none
    | some name =>
        let folder ← s.walk [] ns.dropLast
        let place ← s.walk folder [name]
        if name = "." ∨ name = ".." then pure none else pure (some place)

/-- Make a directory where nothing stands. -/
def makeDirectory (s : FileStore) (path : String) : Except FileError FileStore := do
  match ← s.target path with
  | none => throw .exists_
  | some place =>
      match s.entryAt place with
      | .absent => pure (s.put place .directory)
      | _ => throw .exists_

/-- Write a file, in place of the one that stands there. -/
def write (s : FileStore) (path text : String) : Except FileError FileStore := do
  match ← s.target path with
  | none => throw .isDirectory
  | some place =>
      if endsOpen path then throw .isDirectory
      else
        match s.entryAt place with
        | .directory => throw .isDirectory
        | _ => pure (s.put place (.file text))

/-- Keep the changed store, or the old one together with the refusal. -/
def attempt (change : FileStore → Except FileError FileStore) :
    StateM FileStore (Except FileError Unit) := fun s =>
  match change s with
  | .ok s => (.ok (), s)
  | .error e => (.error e, s)

/-- Access to the files of a store that is passed along. -/
def system : FileSystem (StateM FileStore) :=
  { look := fun path s => (s.look path, s)
    makeDirectory := fun path => attempt (·.makeDirectory path)
    write := fun path text => attempt (·.write path text) }

end FileStore

end BoundedTables
