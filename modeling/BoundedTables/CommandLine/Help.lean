/-!
# Help pages

What the program prints about itself and its commands. The rows of a section are aligned.
-/

namespace BoundedTables.CommandLine

/-- A titled list of names with descriptions. -/
structure HelpSection where
  title : String
  rows : List (String × String)

/-- A help page. -/
structure HelpPage where
  about : String
  usage : String
  sections : List HelpSection

/-- A text filled up with blanks. -/
def padded (width : Nat) (s : String) : String :=
  s ++ String.ofList (List.replicate (width - s.length) ' ')

/-- The lines of a section. -/
def HelpSection.text (s : HelpSection) : String :=
  let width := s.rows.foldl (fun width row => max width row.1.length) 0
  let row (r : String × String) : String := "  " ++ padded width r.1 ++ "  " ++ r.2 ++ "\n"
  s.title ++ ":\n" ++ String.join (s.rows.map row)

/-- The text of a page, with an empty line in front of every section. -/
def HelpPage.text (p : HelpPage) : String :=
  p.about ++ "\n\nUsage: " ++ p.usage ++ "\n"
    ++ String.join (p.sections.map fun s => "\n" ++ s.text)

namespace HelpPage

/-- The row of the help option. -/
def helpRow : String × String := ("-h, --help", "Print help")

/-- What the commands do. -/
def commandRows : List (String × String) :=
  [("validate", "Validate the configuration file"),
    ("gen-config", "Generate a default configuration file"),
    ("exercise", "Build every container and run the synthetic workload"),
    ("help", "Print this message or the help of the given subcommand(s)")]

/-- What a command does. -/
def describe (command : String) : String := (commandRows.lookup command).getD ""

/-- The page of the program. -/
def program : HelpPage :=
  { about :=
      "Bounded hash-indexed containers: circular, linked, concurrent LRU and Bloom-filtered maps"
    usage := "mauka-tables [OPTIONS] [COMMAND]"
    sections :=
      [⟨"Commands", commandRows⟩,
        ⟨"Options",
          [("-c, --config <CONFIG>", "Path to configuration file"), helpRow,
            ("-V, --version", "Print version")]⟩] }

/-- The page of the command that validates. -/
def validate : HelpPage :=
  { about := describe "validate"
    usage := "mauka-tables validate"
    sections := [⟨"Options", [helpRow]⟩] }

/-- The page of the command that writes a configuration. -/
def generate : HelpPage :=
  { about := describe "gen-config"
    usage := "mauka-tables gen-config --output <OUTPUT>"
    sections :=
      [⟨"Options", [("-o, --output <OUTPUT>", "Path to output configuration file"), helpRow]⟩] }

/-- The page of the command that runs the workload. -/
def exercise : HelpPage :=
  { about := describe "exercise"
    usage := "mauka-tables exercise [OPTIONS]"
    sections :=
      [⟨"Options", [("    --json", "Print the report as JSON instead of log lines"), helpRow]⟩] }

/-- The page of the command that prints help. -/
def help : HelpPage :=
  { about := describe "help"
    usage := "mauka-tables help [COMMAND]..."
    sections := [⟨"Arguments", [("[COMMAND]...", "Print help for the subcommand(s)")]⟩] }

/-- The page of a command. -/
def ofCommand? : String → Option HelpPage
  | "validate" => some validate
  | "gen-config" => some generate
  | "exercise" => some exercise
  | "help" => some help
  | _ => none

end HelpPage

end BoundedTables.CommandLine
