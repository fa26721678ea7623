import BoundedTables.Decimal.Scan
import BoundedTables.Settings.Library

/-!
# Settings in the environment

An environment variable overrides a setting when its name starts with the name of the program and
two underscores. What follows is the path of the setting, with two underscores between its names.
Case does not matter.
-/

namespace BoundedTables.Environment

/-- A path with points in place of double underscores. -/
def dotted : List Char → List Char
  | '_' :: '_' :: rest => '.' :: dotted rest
  | c :: rest => c :: dotted rest
  | [] => []

/-- The path of the setting that a variable overrides. -/
def settingKey? (programName variableName : String) : Option String :=
  if concerns programName variableName then
    let behind := (Text.lower variableName).toList.drop (Text.lower (programName ++ "__")).length
    some (String.ofList (dotted behind))
  else none

/-- The value of a variable: a flag in any case, an integer, a double, or else text. -/
def value (s : String) : Tree :=
  match Text.lower s, Decimal.int64? s.toList, Decimal.float? s.toList with
  | "true", _, _ => .bool true
  | "false", _, _ => .bool false
  | _, some n, _ => .int n
  | _, none, some x => .float x
  | _, none, none => .text s

/-- The settings that variables override, in the order of the variables. -/
def layer (programName : String) (assignments : List (String × String)) : List (String × Tree) :=
  assignments.filterMap fun (name, text) =>
    (settingKey? programName name).map fun key => (key, value text)

end BoundedTables.Environment
