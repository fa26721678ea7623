import BoundedTables.CommandLine.Arguments
import BoundedTables.Settings.Loader
import BoundedTables.Workload.Report

/-!
# Carrying out a command

A command ends with an outcome: something to print, or an error in the context of what was being
done. The exit code tells the kinds of outcomes apart.
-/

namespace BoundedTables.CommandLine

open Hashing

/-- What a command depends on besides its arguments and the files. -/
structure Machine where
  library : ConfigLibrary
  environment : List (String × String)
  processors : Nat
  seed : Seed

/-- What made a command fail. -/
inductive Cause where
  | config (error : ConfigError)
  | file (error : FileError)
  | workload (failure : Failure)

/-- The wording of a cause. -/
def Cause.message : Cause → String
  | config e => e.message
  | file e => e.message
  | workload f => f.message

/-- A failure in the context of what was being done. -/
structure CommandError where
  context : String
  cause : Cause

/-- A text with its further lines indented. -/
def indented (s : String) : List Char :=
  s.toList.flatMap fun c => if c = '\n' then ['\n', ' ', ' ', ' ', ' '] else [c]

/-- The wording of a failure, without the cause. -/
def CommandError.headline (e : CommandError) : String := "Error: " ++ e.context

/-- The wording of a failure. -/
def CommandError.message (e : CommandError) : String :=
  e.headline ++ "\n\nCaused by:\n    " ++ String.ofList (indented e.cause.message)

/-- What a command prints. -/
inductive Output where
  | nothing
  | text (s : String)
  /-- A report as JSON. -/
  | report (r : WorkloadReport)
  /-- A report as lines in the log. -/
  | summary (r : WorkloadReport)

/-- How a command ends. -/
inductive Outcome where
  | done (output : Output)
  | failed (error : CommandError)
  /-- The arguments ask for nothing that can be done. -/
  | misused
  /-- There is no result. -/
  | crashed

/-- The exit code of an outcome. -/
def Outcome.code : Outcome → Nat
  | done _ => 0
  | failed _ => 1
  | misused => 2
  | crashed => 101

variable {m : Type → Type} [Monad m]

/-- Load the settings that a command works with. -/
def loadSettings (fs : FileSystem m) (machine : Machine) (config : Option String) :
    m (Option (Except ConfigError Settings × Journal)) :=
  Settings.load machine.library fs.look ⟨config, SettingsRequest.standardName, machine.environment⟩

/-- Check the settings. -/
def validate (fs : FileSystem m) (machine : Machine) (config : Option String) : m Outcome := do
  match ← loadSettings fs machine config with
  | none => pure .crashed
  | some (.ok _, _) => pure (.done .nothing)
  | some (.error e, _) => pure (.failed ⟨"Configuration validation failed", .config e⟩)

/-- Write the default settings. -/
def writeDefaults (fs : FileSystem m) (machine : Machine) (output : String) : m Outcome := do
  match ← Settings.writeToml machine.library fs .standard output with
  | .ok () => pure (.done .nothing)
  | .error e => pure (.failed ⟨"Failed to write configuration", .config e⟩)

/-- Write the default settings, in a folder that is made if it is missing. -/
def generate (fs : FileSystem m) (machine : Machine) (output : String) : m Outcome := do
  let folder := (Path.parent? output).getD ""
  match ← fs.makeDirectories folder with
  | .ok () => writeDefaults fs machine output
  | .error e => pure (.failed ⟨"Cannot create " ++ folder, .file e⟩)

/-- Run the workload. -/
def exercise [ByteHash] (fs : FileSystem m) (machine : Machine) (config : Option String)
    (json : Bool) : m Outcome := do
  match ← loadSettings fs machine config with
  | none => pure .crashed
  | some (.error e, _) => pure (.failed ⟨"Failed to load configuration", .config e⟩)
  | some (.ok s, _) =>
      match Workload.run s machine.seed machine.processors with
      | none => pure .crashed
      | some (.error f, _) => pure (.failed ⟨"Workload failed", .workload f⟩)
      | some (.ok r, _) => pure (.done (if json then .report r else .summary r))

/-- Carry out what arguments ask for. -/
def run [ByteHash] (fs : FileSystem m) (machine : Machine) (args : List String) : m Outcome :=
  match Request.ofArguments args with
  | .misuse => pure .misused
  | .print text => pure (.done (.text text))
  | .run config .validate => validate fs machine config
  | .run _ (.generate output) => generate fs machine output
  | .run config (.exercise json) => exercise fs machine config json

end BoundedTables.CommandLine
