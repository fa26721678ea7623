import BoundedTables.Json.Scan
import BoundedTables.Files.Path
import BoundedTables.Settings.Environment
import BoundedTables.Toml.Document
import BoundedTables.Toml.Text
import BoundedTables.Tree.Coerce
import BoundedTables.Tree.KeyPath
import BoundedTables.Yaml.Document

/-!
# The standard library for settings

The library that the command line works with. Every format is read into the members of a tree, and
layers are laid over each other key by key. A document whose root is not a table has no members.
-/

namespace BoundedTables

/-- A JSON document read exactly: every value has the kind of its setting, and a list of values
is not longer than its section. -/
def SettingsSource.json : SettingsSource Json :=
  { fields? := fun names v => match v with
      | .object _ => some fun name => v.member? name
      | .array items =>
          if names.length < items.length then none
          else some fun name => items[names.idxOf name]?
      | _ => none
    isNull := fun v => match v with
      | .null => true
      | _ => false
    word? := Json.nat?
    word32? := fun v => v.nat?.filter (· < UInt32.size)
    float? := Json.float?
    flag? := Json.bool?
    text? := Json.text?
    variant? := fun v => match v with
      | .text s => some s
      | .object [(name, .null)] => some name
      | _ => none }

/-- A configuration tree read leniently: scalars convert into each other, and further values of a
list are ignored. -/
def SettingsSource.tree : SettingsSource Tree :=
  { fields? := fun names v => match v with
      | .table members => some (Tree.member? members)
      | .list items => some fun name => items[names.idxOf name]?
      | _ => none
    isNull := fun v => match v with
      | .nil => true
      | _ => false
    word? := Tree.word?
    word32? := Tree.word32?
    float? := Tree.float?
    flag? := Tree.flag?
    text? := Tree.text?
    variant? := fun v => match v with
      | .text s => some s
      | .table [(name, _)] => some name
      | _ => none }

/-- The members of the root of a document. -/
def DocumentFormat.members? (format : DocumentFormat) (text : String) :
    Option (List (String × Tree)) :=
  match format with
  | toml => Toml.parse? text
  | json => (Json.parse? text).map fun value => (Tree.ofJson value).members
  | yaml => Yaml.parse? text

namespace ConfigLibrary

/-- A TOML document of tables, unless one of their integers is past the signed words. -/
def writeToml (tables : List (String × List (String × Tree))) : Except String String :=
  match Toml.document? tables with
  | some text => .ok text
  | none => .error "an integer is out of range"

/-- The path of a document itself, and then the paths next to it that have one more extension. -/
def placesBeside (format : DocumentFormat) (path : String) : List String :=
  path :: format.extensions.map fun e => Path.trimmed path ++ "." ++ e

/-- The members of a document whose text was found. -/
def readDocument (format : DocumentFormat) (text : Option String) :
    Except SourceError (List (String × Tree)) :=
  match text.bind format.members? with
  | some members => .ok members
  | none => .error (.other "the document is malformed")

/-- The library that the command line works with. -/
def standard : ConfigLibrary :=
  { floatText := Toml.floatText
    float? := fun text => Decimal.float? text.toList
    write := writeToml
    layer := fun tables => .ok (Tree.layerOf tables)
    places := placesBeside
    read := readDocument
    overrides := Environment.layer
    merge := fun layers => layers.foldlM Tree.overlay (.table [])
    source := .tree }

end ConfigLibrary

end BoundedTables
