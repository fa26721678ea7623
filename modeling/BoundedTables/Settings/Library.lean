import BoundedTables.Error
import BoundedTables.Settings.Schema
import BoundedTables.Text.Lowercase

/-!
# What settings are read and written with

Documents are written, read and merged by a library of its own. Settings are loaded and written
with any such library: of each, only the interface is known here.
-/

namespace BoundedTables

/-- The format of a configuration document. -/
inductive DocumentFormat where
  | toml
  | json
  | yaml
  deriving DecidableEq, Repr

namespace DocumentFormat

/-- The extensions of a format. -/
def extensions : DocumentFormat → List String
  | toml => ["toml"]
  | json => ["json"]
  | yaml => ["yaml", "yml"]

/-- The format with an extension. -/
def ofExtension? (extension : String) : Option DocumentFormat :=
  [toml, json, yaml].find? fun f => extension ∈ f.extensions

end DocumentFormat

/-- Why a library refuses a source of settings. -/
inductive SourceError where
  | notFound (path : String)
  /-- A document cannot be read. It may have a name. -/
  | unreadable (name : Option String) (cause : String)
  | other (reason : String)
  deriving DecidableEq, Repr

/-- A refused source as an error of the configuration. -/
def ConfigError.ofSource : SourceError → ConfigError
  | .notFound path => .fileNotFound path
  | .unreadable name cause =>
      .parse (.malformed ("Error parsing " ++ name.getD "config file" ++ ": " ++ cause))
  | .other reason => .parse (.malformed reason)

/-- Whether an environment variable belongs to a program: its name starts with that of the program
and two underscores, in any case. -/
def Environment.concerns (programName variableName : String) : Bool :=
  (Text.lower (programName ++ "__")).toList.isPrefixOf (Text.lower variableName).toList

/-- What writes, reads and merges configuration documents. A layer is the members of a table, most
of which are tables themselves. -/
structure ConfigLibrary where
  /-- How a double is written in a document. -/
  floatText : Float → String
  /-- The double that a text in a document denotes. -/
  float? : String → Option Float
  /-- A TOML document of named tables, or why there is none. -/
  write : List (String × List (String × Tree)) → Except String String
  /-- Named tables as a layer, or why they are none. -/
  layer : List (String × List (String × Tree)) → Except String (List (String × Tree))
  /-- Where a document with a path may stand, in the order in which it is looked for. -/
  places : DocumentFormat → String → List String
  /-- A document as a layer, from its text if that was found. -/
  read : DocumentFormat → Option String → Except SourceError (List (String × Tree))
  /-- The layer of the environment variables of a program, which are given with their values. -/
  overrides : String → List (String × String) → List (String × Tree)
  /-- Lay layers over each other, the last one on top. There is no result when a key points to no
  place in a list. -/
  merge : List (List (String × Tree)) → Option Tree
  /-- How the values of merged layers are read. -/
  source : SettingsSource Tree

end BoundedTables
