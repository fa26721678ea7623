import BoundedTables.CommandLine.Run
import BoundedTables.Json.Pretty
import BoundedTables.Settings.Standard

/-!
# The command line program

The files, the environment and the processors of the machine are handed to the command that the
arguments ask for, and its outcome is printed.
-/

namespace BoundedTables.CommandLine

/-- The refusal behind a failed call. -/
def refusal (e : IO.Error) : FileError :=
  match e with
  | .alreadyExists _ code text | .inappropriateType _ code text | .permissionDenied _ code text
  | .noFileOrDirectory _ code text | .resourceExhausted _ code text | .noSuchThing _ code text
  | .invalidArgument _ code text | .otherError code text | .resourceBusy code text =>
      ⟨some code.toNat, text⟩
  | e => ⟨none, toString e⟩

/-- Make a call, and keep its refusal. -/
def attempt (call : IO Unit) : IO (Except FileError Unit) := do
  match ← call.toBaseIO with
  | .ok () => pure (.ok ())
  | .error e => pure (.error (refusal e))

/-- What stands at a path on the machine. -/
def lookAt (path : String) : IO Entry := do
  match ← (IO.FS.readBinFile path).toBaseIO with
  | .ok bytes =>
      match String.fromUTF8? bytes with
      | some text => pure (.file text)
      | none => pure .unreadable
  | .error (.inappropriateType _ 21 _) => pure .directory
  | .error (.noFileOrDirectory ..) | .error (.inappropriateType ..)
  | .error (.invalidArgument ..) => pure .absent
  | .error _ => pure .unreadable

/-- The files of the machine. -/
def machineFiles : FileSystem IO :=
  { look := lookAt
    makeDirectory := fun path => attempt (IO.FS.createDir path)
    write := fun path text => attempt (IO.FS.writeFile path text) }

/-- The text that the machine keeps in a file, empty if there is none. -/
def textAt (path : String) : IO String := do
  match ← lookAt path with
  | .file text => pure text
  | _ => pure ""

/-- The name and the value of an environment variable. -/
def assignment? (s : String) : Option (String × String) :=
  match s.splitOn "=" with
  | name :: value :: rest => some (name, String.intercalate "=" (value :: rest))
  | _ => none

/-- The word in eight bytes, lowest first. -/
def wordOf (bytes : List UInt8) : UInt64 :=
  bytes.foldr (fun b n => n * 256 + b.toUInt64) 0

/-- What commands depend on, as the machine tells it. -/
def thisMachine : IO Machine := do
  let environment ← textAt "/proc/self/environ"
  let processors ← textAt "/proc/cpuinfo"
  let random ← IO.getRandomBytes 16
  let bytes := random.toList
  pure
    { library := .standard
      environment := (environment.splitOn (String.singleton (Char.ofNat 0))).filterMap assignment?
      processors := (processors.splitOn "\n").countP (·.startsWith "processor")
      seed := ⟨wordOf (bytes.take 8), wordOf (bytes.drop 8)⟩ }

/-- Print an outcome. Only what a command was asked for goes to the standard output. -/
def printOutcome (o : Outcome) : IO Unit :=
  match o with
  | .done .nothing => pure ()
  | .done (.text s) => IO.print s
  | .done (.report r) => IO.println r.toJson.pretty
  | .done (.summary r) => r.lines.forM fun line => IO.eprintln line
  | .failed e => IO.eprintln e.message
  | .misused => IO.eprintln ("error: invalid arguments\n\nUsage: " ++ HelpPage.program.usage)
  | .crashed => IO.eprintln "error: no result"

/-- Carry out what arguments ask for, and print the outcome. -/
def runAndPrint (args : List String) : IO UInt32 := do
  let outcome ← run machineFiles (← thisMachine) args
  printOutcome outcome
  pure (UInt32.ofNat outcome.code)

end BoundedTables.CommandLine

/-- The program. The result is its exit code. -/
def main (args : List String) : IO UInt32 := BoundedTables.CommandLine.runAndPrint args
