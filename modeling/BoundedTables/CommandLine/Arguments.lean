import BoundedTables.CommandLine.Help

/-!
# Command line arguments

Options come in a long form and some in a short one; short ones may be joined behind one dash. An
option with a value takes what is joined to it, or else the next argument. Such an option is
settled only when the next one is read or the arguments end, so that asking a command for help
wins over a bad value in front of the command.
-/

namespace BoundedTables

/-- The version of the library, as the command line reports it. -/
def version : String := "0.1.0"

namespace CommandLine

/-- What an option does. -/
inductive OptionKind where
  | help
  | version
  | flag
  /-- Takes a value. -/
  | value
  deriving DecidableEq, Repr

/-- An option. -/
structure OptionSpec where
  long : String
  short : Option Char
  kind : OptionKind

/-- Why the arguments are not a command to carry out. -/
inductive Stop where
  | help
  | version
  | misuse
  deriving DecidableEq, Repr

/-- The options read so far. -/
structure OptionState where
  /-- The settled options with their values. -/
  given : List (String × String)
  /-- The last option, if it takes a value: with the value, or still without. -/
  pending : Option (String × Option String)

namespace OptionState

/-- No option yet. -/
def empty : OptionState := ⟨[], none⟩

/-- Settle an option. It may be given once, and its value must not be empty. -/
def give (s : OptionState) (name value : String) : Except Stop OptionState :=
  if value = "" ∨ (s.given.lookup name).isSome then .error .misuse
  else .ok ⟨(name, value) :: s.given, none⟩

/-- Settle the last option. -/
def settle (s : OptionState) : Except Stop OptionState :=
  match s.pending with
  | none => .ok s
  | some (_, none) => .error .misuse
  | some (name, some value) => s.give name value

/-- Whether the next argument may be the value of the last option. -/
def expectsValue (s : OptionState) : Bool :=
  match s.pending with
  | some (_, none) => true
  | _ => false

/-- Read an option with the value joined to it. -/
def option (s : OptionState) (spec : OptionSpec) (attached : Option String) :
    Except Stop OptionState := do
  let s ← s.settle
  match spec.kind, attached with
  | .help, none => throw .help
  | .version, none => throw .version
  | .flag, none => s.give spec.long "true"
  | .value, none => pure { s with pending := some (spec.long, none) }
  | .value, some value => s.give spec.long value
  | _, some _ => throw .misuse

/-- Read joined short options. -/
def cluster (specs : List OptionSpec) (s : OptionState) : List Char → Except Stop OptionState
  | [] => .ok s
  | c :: rest =>
      match specs.find? fun spec => spec.short == some c with
      | none => .error .misuse
      | some spec =>
          match spec.kind, rest with
          | .value, [] => s.option spec none
          | .value, '=' :: value => s.option spec (some (String.ofList value))
          | .value, value => s.option spec (some (String.ofList value))
          | _, _ => do
              let s ← s.option spec none
              cluster specs s rest

/-- Read a long option, from behind its dashes. -/
def long (specs : List OptionSpec) (s : OptionState) (cs : List Char) : Except Stop OptionState :=
  let name := String.ofList (cs.takeWhile (· != '='))
  match specs.find? fun spec => spec.long == name with
  | none => .error .misuse
  | some spec =>
      match cs.dropWhile (· != '=') with
      | [] => s.option spec none
      | _ :: value => s.option spec (some (String.ofList value))

/-- Read arguments up to a command. The result has the command with the arguments behind it. -/
def scan (specs : List OptionSpec) (commands : List String) (s : OptionState) :
    List String → Except Stop (OptionState × Option (String × List String))
  | [] => .ok (s, none)
  | arg :: rest =>
      if arg ∈ commands ∧ !s.expectsValue then .ok (s, some (arg, rest))
      else
        match arg.toList with
        | ['-', '-'] => if rest = [] then .ok (s, none) else .error .misuse
        | '-' :: '-' :: cs => do
            let s ← s.long specs cs
            scan specs commands s rest
        | '-' :: c :: cs => do
            let s ← s.cluster specs (c :: cs)
            scan specs commands s rest
        | _ =>
            match s.pending with
            | some (name, none) =>
                scan specs commands { s with pending := some (name, some arg) } rest
            | _ => .error .misuse

end OptionState

/-- A command with its options. -/
inductive Command where
  | validate
  | generate (output : String)
  | exercise (json : Bool)
  deriving DecidableEq, Repr

/-- What the arguments ask for. -/
inductive Request where
  | run (config : Option String) (command : Command)
  /-- Print a text about the program. -/
  | print (text : String)
  | misuse
  deriving DecidableEq, Repr

/-- The help option. -/
def helpOption : OptionSpec := ⟨"help", some 'h', .help⟩

/-- The options in front of a command. -/
def programOptions : List OptionSpec :=
  [⟨"config", some 'c', .value⟩, helpOption, ⟨"version", some 'V', .version⟩]

/-- The options of a command. -/
def commandOptions : String → List OptionSpec
  | "gen-config" => [⟨"output", some 'o', .value⟩, helpOption]
  | "exercise" => [⟨"json", none, .flag⟩, helpOption]
  | _ => [helpOption]

/-- The names of the commands. -/
def commandNames : List String := HelpPage.commandRows.map (·.1)

/-- The command with a name and options. -/
def Command.ofOptions (name : String) (given : List (String × String)) : Except Stop Command :=
  match name with
  | "gen-config" =>
      match given.lookup "output" with
      | some output => .ok (.generate output)
      | none => .error .misuse
  | "exercise" => .ok (.exercise (given.lookup "json").isSome)
  | _ => .ok .validate

/-- Read a command from the arguments behind its name. -/
def readCommand (name : String) (args : List String) : Except Stop Command := do
  let (s, _) ← OptionState.empty.scan (commandOptions name) [] args
  let s ← s.settle
  Command.ofOptions name s.given

/-- The text that asking for help or for the version prints. -/
def stopRequest (page : HelpPage) : Stop → Request
  | .help => .print page.text
  | .version => .print ("mauka-tables " ++ version ++ "\n")
  | .misuse => .misuse

/-- The page that the help command is asked for. -/
def helpRequest : List String → Request
  | [] => .print HelpPage.program.text
  | [name] =>
      match HelpPage.ofCommand? name with
      | some page => .print page.text
      | none => .misuse
  | _ => .misuse

/-- The request with the options in front of the command. -/
def requestWith (s : OptionState) (command : Command) : Request :=
  match s.settle with
  | .ok s => .run (s.given.lookup "config") command
  | .error _ => .misuse

/-- What arguments ask for. Without a command the configuration is validated. -/
def Request.ofArguments (args : List String) : Request :=
  match OptionState.empty.scan programOptions commandNames args with
  | .error stop => stopRequest .program stop
  | .ok (s, none) => requestWith s .validate
  | .ok (_, some ("help", args)) => helpRequest args
  | .ok (s, some (name, args)) =>
      match readCommand name args with
      | .error stop => stopRequest ((HelpPage.ofCommand? name).getD .program) stop
      | .ok command => requestWith s command

end CommandLine

end BoundedTables
