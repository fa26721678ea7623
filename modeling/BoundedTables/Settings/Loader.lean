import BoundedTables.Event
import BoundedTables.Files.Basic
import BoundedTables.Settings.Library

/-!
# Loading and writing settings

Settings come in three layers: the defaults, a document and the environment. A later layer
overrides the earlier ones value by value. The merged settings are checked before they are handed
out, and settings can be written as a document that loads back. How documents are written and layers
are merged is up to a library.
-/

namespace BoundedTables

/-- Where settings come from. -/
structure SettingsRequest where
  /-- The path of the document, if there is one. -/
  path : Option String
  /-- What the names of environment variables start with. -/
  programName : String
  environment : List (String × String)

/-- The program name that the command line uses. -/
def SettingsRequest.standardName : String := "MAUKA_TABLES"

/-- The event of loaded settings. -/
def SettingsRequest.event (q : SettingsRequest) : Event :=
  let path := match q.path with
    | some path => "Some(" ++ Path.quote path ++ ")"
    | none => "None"
  .configurationLoaded path q.programName

namespace Settings

variable {m : Type → Type} [Monad m]

/-- The text of the first file among some paths. -/
def firstText? (look : String → m Entry) : List String → m (Option String)
  | [] => pure none
  | path :: rest => do
      match ← look path with
      | .file text => pure (some text)
      | .unreadable => pure none
      | _ => firstText? look rest

/-- The layer of the document at a path, which has to be there. -/
def document (lib : ConfigLibrary) (look : String → m Entry) (path : String) :
    m (Except ConfigError (List (String × Tree))) := do
  match ← look path with
  | .absent => pure (.error (.fileNotFound path))
  | _ =>
      match (Path.extension? path).bind DocumentFormat.ofExtension? with
      | none => pure (.error (.parse (.unsupportedExtension (Path.quote path))))
      | some format =>
          let text ← firstText? look (lib.places format path)
          pure ((lib.read format text).mapError .ofSource)

/-- The layer of the document that is asked for, if one is. -/
def documents (lib : ConfigLibrary) (look : String → m Entry) :
    Option String → m (Except ConfigError (List (List (String × Tree))))
  | none => pure (.ok [])
  | some path => return (← document lib look path).map ([·])

/-- Read the settings from merged layers, and check them. There is no result when the layers cannot
be merged. -/
def assemble (lib : ConfigLibrary) (layers : List (List (String × Tree))) :
    Option (Except ConfigError Settings) :=
  (lib.merge layers).map fun tree =>
    match lib.source.settings? tree with
    | none => .error (.parse (.malformed "a setting has a value of the wrong kind"))
    | some s => s.check.map fun _ => s

/-- Load settings: the environment over a document over the defaults. That they are loaded is
reported. There is no result when `assemble` has none. -/
def load (lib : ConfigLibrary) (look : String → m Entry) (q : SettingsRequest) :
    m (Option (Except ConfigError Settings × Journal)) := do
  match lib.layer standard.sections with
  | .error reason => pure (some (.error (.parse (.malformed reason)), .empty))
  | .ok defaults =>
      match ← documents lib look q.path with
      | .error e => pure (some (.error e, .empty))
      | .ok documents =>
          let environment := lib.overrides q.programName q.environment
          match assemble lib (defaults :: documents ++ [environment]) with
          | none => pure none
          | some (.error e) => pure (some (.error e, .empty))
          | some (.ok s) => pure (some (.ok s, Journal.empty.log q.event))

/-- The settings as a TOML document. -/
def toToml (lib : ConfigLibrary) (s : Settings) : Except ConfigError String :=
  match lib.write s.sections with
  | .ok text => .ok text
  | .error reason => .error (.parse (.malformed reason))

/-- Write the settings as a TOML document. -/
def writeToml (lib : ConfigLibrary) (fs : FileSystem m) (s : Settings) (path : String) :
    m (Except ConfigError Unit) := do
  match s.toToml lib with
  | .error e => pure (.error e)
  | .ok text =>
      match ← fs.write path text with
      | .ok () => pure (.ok ())
      | .error e => pure (.error (.parse (.cannotWrite path e.message)))

end Settings

end BoundedTables
