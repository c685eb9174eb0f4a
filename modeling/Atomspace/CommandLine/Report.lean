import Atomspace.Agent
import Atomspace.CommandLine.Help
import Atomspace.Program
import Atomspace.Space.Stats
import Atomspace.Text.Json
/-!
# Reports

What commands print, as lines to be read and as documents for other programs.
-/

namespace Atomspace.CommandLine

/-- One line for each item. -/
def lines (items : List String) : String :=
  String.join (items.map (· ++ "\n"))

/-- An evaluated statement with its results. -/
def outputLine (o : Output Double) : String :=
  "!" ++ o.atom.text ++ " => [" ++ ", ".intercalate (o.results.map Atom.text) ++ "]"

/-! ## Matches -/

/-- A match as a document. -/
def matchDocument (m : Match Double) : Text.Json :=
  .object [
    ("atom", .text m.atom.text),
    ("bindings", .array (m.view.map fun (name, value) => .array [.text name, .text value])),
    ("score", .number m.score)]

/-- A match as numbered lines. -/
def matchLines (number : Nat) (m : Match Double) : List String :=
  ("  " ++ toString number ++ ". " ++ m.atom.text ++ " (score: " ++ m.score.fixed 4 ++ ")")
    :: m.view.map fun (name, value) => "     " ++ name ++ " = " ++ value

/-- All matches as lines. -/
def matchReport (found : List (Match Double)) : String :=
  if found.isEmpty then "No matches.\n"
  else
    let shown := (found.mapIdx fun i m => matchLines (i + 1) m).flatten
    "Found " ++ toString found.length ++ " match(es)\n\n" ++ lines shown

/-! ## Statistics -/

/-- The kinds of atoms in the order of their names. -/
def kinds : List Atom.Kind := [.expr, .grounded, .symbol, .var]

/-- Statistics as a document. -/
def statsDocument (s : Stats Double) : Text.Json :=
  .object [
    ("total_atoms", .count s.total),
    ("by_kind", .object (kinds.map fun kind => (kind.name, .count (s.ofKind kind)))),
    ("rules", .count s.rules),
    ("type_declarations", .count s.typeDeclarations),
    ("protected", .count s.protectedSymbols),
    ("mean_sti", .number s.meanShortTerm),
    ("mean_lti", .number s.meanLongTerm),
    ("mean_confidence", .number s.meanConfidence),
    ("clock", .count s.clock)]

/-- Statistics as lines. -/
def statsLines (s : Stats Double) : List String :=
  ["Atomspace Statistics",
    String.ofList (List.replicate 40 '='),
    "  Total atoms:         " ++ toString s.total,
    "  Protected:           " ++ toString s.protectedSymbols,
    "  Rules:               " ++ toString s.rules,
    "  Type declarations:   " ++ toString s.typeDeclarations,
    "",
    "By Kind:"]
  ++ kinds.map (fun kind => "  " ++ padRight 12 kind.name ++ " " ++ toString (s.ofKind kind))
  ++ ["",
    "Mean short-term:       " ++ s.meanShortTerm.fixed 4,
    "Mean long-term:        " ++ s.meanLongTerm.fixed 4,
    "Mean confidence:       " ++ s.meanConfidence.fixed 4,
    "Clock:                 " ++ toString s.clock]

/-! ## Runs of an agent -/

/-- Why a run ended, as it is shown. -/
def stopName : Agent.StopReason → String
  | .goalReached => "GoalReached"
  | .environmentStopped => "EnvironmentStopped"
  | .cycleBudget => "CycleBudget"

/-- An episode by its number and what happened in it. -/
def episodeLine (number : Nat) (summary : Agent.RunSummary Double) : String :=
  "  episode " ++ padLeft 3 (toString number) ++ ": " ++ toString summary.cycles
    ++ " cycle(s), reward " ++ summary.totalReward.fixed 2 ++ ", stop: " ++ stopName summary.stop

/-- An action with its utility, if it has one. -/
def utilityLine (action : Atom Double) (utility : Option Double) : String :=
  "  " ++ padRight 20 action.text ++ " " ++ utility.elim "-" (·.fixed 4)

end Atomspace.CommandLine
