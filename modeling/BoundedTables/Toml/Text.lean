import BoundedTables.Text.Hexadecimal
import BoundedTables.Tree.Basic

/-!
# Writing TOML

A document of named tables, each with its scalars on lines of their own. Text is enclosed by the
quotes that save escapes. Values that are absent are left out, and an integer past the signed
64-bit words has no written form.
-/

namespace BoundedTables.Toml

open Decimal

/-- Doubles always show a fraction. -/
def floatText (x : Float) : String := FloatFormat.fractional.text "nan" x

/-- How a string is enclosed: by one quote on each side, or by three. -/
structure Quoting where
  quote : Char
  multiline : Bool
  deriving DecidableEq, Repr

/-- Double quotes, which leave room for escapes. -/
def Quoting.basic (multiline : Bool) : Quoting := ⟨'"', multiline⟩

/-- Single quotes, between which every character stands for itself. -/
def Quoting.literal (multiline : Bool) : Quoting := ⟨'\'', multiline⟩

/-- The number of quotes in a row that the enclosed text may hold as they are. -/
def Quoting.tolerance (q : Quoting) : Nat := if q.multiline then 2 else 0

/-- The quotes on one side. -/
def Quoting.marks (q : Quoting) : List Char := List.replicate (if q.multiline then 3 else 1) q.quote

/-- A control character that strings never hold as it is. -/
def isControl (c : Char) : Bool := (c.toNat < 32 && c != '\t' && c != '\n') || c.toNat = 127

/-- The length of the longest run of a character. -/
def longestRun (c : Char) (cs : List Char) : Nat :=
  let step := fun (longest, run) d =>
    let run := if d = c then run + 1 else 0
    (max longest run, run)
  (cs.foldl step (0, 0)).1

/-- Whether a text can be enclosed without any escapes. -/
def Quoting.fits (q : Quoting) (cs : List Char) : Bool :=
  !cs.any isControl
    && (q.quote != '"' || !cs.contains '\\')
    && (q.multiline || !cs.contains '\n')
    && longestRun q.quote cs ≤ q.tolerance

/-- How a text is enclosed: by the first kind of quotes that needs no escapes, or else by double
quotes on as many lines as it has. -/
def quoting (cs : List Char) : Quoting :=
  let kinds : List Quoting := [.basic false, .literal false, .basic true, .literal true]
  (kinds.find? fun q => q.fits cs).getD (.basic (cs.contains '\n'))

/-- The escaped form of a character between double quotes, if it has to be escaped. -/
def escape? (multiline : Bool) (c : Char) : Option (List Char) :=
  if c = '\n' then if multiline then none else some ['\\', 'n']
  else if c = '\t' then some ['\\', 't']
  else if c = '\r' then some ['\\', 'r']
  else if c = '\\' then some ['\\', '\\']
  else if c.toNat = 8 then some ['\\', 'b']
  else if c.toNat = 12 then some ['\\', 'f']
  else if isControl c then
    some ['\\', 'u', '0', '0', Hexadecimal.upperDigit (c.toNat / 16),
      Hexadecimal.upperDigit (c.toNat % 16)]
  else none

/-- A text between double quotes, after a run of quotes. A quote is escaped when it makes its run
longer than tolerated, and behind an escape a run starts anew. -/
def escapeAll (q : Quoting) : Nat → List Char → List Char
  | _, [] => []
  | run, c :: rest =>
      if c = '"' then
        if q.tolerance < run + 1 then '\\' :: '"' :: escapeAll q 0 rest
        else c :: escapeAll q (run + 1) rest
      else (escape? q.multiline c).getD [c] ++ escapeAll q 0 rest

/-- A quoted text. A text of several lines starts on a line of its own. -/
def quote (s : String) : String :=
  let cs := s.toList
  let q := quoting cs
  let lead := if q.multiline && cs.contains '\n' then ['\n'] else []
  let inner := if q.quote = '"' then escapeAll q 0 cs else cs
  String.ofList (q.marks ++ lead ++ inner ++ q.marks)

/-- The written form of a scalar. -/
def scalar? : Tree → Option String
  | .bool b => some (toString b)
  | .int n => if Binary64.isSignedWord n then some (intText n) else none
  | .float x => some (floatText x)
  | .text s => some (quote s)
  | _ => none

/-- The line of a value, or nothing when it is absent. -/
def line? (m : String × Tree) : Option String :=
  match m.2 with
  | .nil => some ""
  | v => (scalar? v).map fun text => m.1 ++ " = " ++ text ++ "\n"

/-- A table: its header and its lines. -/
def table? (t : String × List (String × Tree)) : Option String :=
  (t.2.mapM line?).map fun lines => "[" ++ t.1 ++ "]\n" ++ String.join lines

/-- A document of tables, with an empty line between each two. -/
def document? (tables : List (String × List (String × Tree))) : Option String :=
  (tables.mapM table?).map fun texts => String.intercalate "\n" texts

end BoundedTables.Toml
