import Atomspace.CommandLine.Arguments
/-!
# Help

The text that explains the program or one of its commands.
-/

namespace Atomspace.CommandLine

/-- The name of the program. -/
def programName : String := "cogspace"

/-- The version of the program. -/
def version : String := "0.1.0"

/-- Fills up a text with blanks to a width. -/
def padRight (width : Nat) (s : String) : String :=
  s ++ String.ofList (List.replicate (width - s.length) ' ')

/-- Fills up a text with blanks on its left to a width. -/
def padLeft (width : Nat) (s : String) : String :=
  String.ofList (List.replicate (width - s.length) ' ') ++ s

/-- A list of things with what is said about them, in two columns under a title. -/
def columns (title : String) (rows : List (String × String)) : String :=
  let width := (rows.map fun r => r.1.length).foldl max 0
  let line (r : String × String) : String := "  " ++ padRight width r.1 ++ "  " ++ r.2 ++ "\n"
  title ++ ":\n" ++ String.join (rows.map line)

/-- A parameter as it is written on the command line. -/
def Parameter.usage (p : Parameter) : String :=
  match p.placeholder with
  | some placeholder => "    --" ++ p.name ++ " <" ++ placeholder ++ ">"
  | none => "    --" ++ p.name

/-- What is said about a parameter. -/
def Parameter.note (p : Parameter) : String :=
  match p.standard with
  | some value => p.about ++ (if p.about.isEmpty then "" else " ") ++ "[default: " ++ value ++ "]"
  | none => p.about

/-- The row about help. -/
def helpRow : String × String := ("-h, --help", "Print help")

/-- The text about one command. -/
def Grammar.help (g : Grammar) : String :=
  let required := g.required.toList.map fun p => "<" ++ p.name ++ ">"
  let usage := " ".intercalate ([programName, g.name, "[OPTIONS]"] ++ required)
  let arguments :=
    if required.isEmpty then "" else columns "Arguments" (required.map fun r => (r, "")) ++ "\n"
  g.about ++ "\n\nUsage: " ++ usage ++ "\n\n" ++ arguments
    ++ columns "Options" ((g.options.map fun p => (p.usage, p.note)) ++ [helpRow])

/-- What is said about the command that explains others. -/
def helpAbout : String := "Print this message or the help of the given subcommand(s)"

/-- The text about the command that explains others. -/
def helpHelp : String :=
  helpAbout ++ "\n\nUsage: " ++ programName ++ " help [COMMAND]...\n\n"
    ++ columns "Arguments" [("[COMMAND]...", "Print help for the subcommand(s)")]

/-- The text about the program. -/
def programHelp (commands : List Grammar) : String :=
  "Atomspace, rewrite interpreter and learning agent\n\nUsage: " ++ programName ++ " <COMMAND>\n\n"
    ++ columns "Commands" ((commands.map fun g => (g.name, g.about)) ++ [("help", helpAbout)])
    ++ "\n" ++ columns "Options" [helpRow, ("-V, --version", "Print version")]

end Atomspace.CommandLine
