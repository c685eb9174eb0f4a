import Atomspace.CommandLine.Help
import Atomspace.Config.Load
/-!
# Requests

What the user asks the program to do: the commands with their grammars, and how the arguments of the
program become a request.
-/

namespace Atomspace.CommandLine

/-- A command. Programs are given as `σ`: by their paths, or with what was read from there. -/
inductive Command (σ : Type) where
  /-- Runs a program, if asked for with background maintenance. -/
  | run (program : σ) (maintain : Bool)
  /-- Evaluates an expression, after running a program if one is given. -/
  | eval (expression : String) (program : Option σ)
  /-- Matches a pattern, after running a program if one is given. -/
  | query (pattern : String) (program : Option σ) (json : Bool)
  /-- Shows statistics, after running a program if one is given. -/
  | stats (program : Option σ) (json : Bool)
  /-- Trains an agent. -/
  | agent (episodes : Nat) (seed : Option Nat)

/-- Gives the program of a command in another way. -/
def Command.withProgram {m : Type → Type} [Monad m] {σ τ : Type} (f : σ → m τ) :
    Command σ → m (Command τ)
  | run program maintain => return run (← f program) maintain
  | eval expression program => return eval expression (← program.mapM f)
  | query pattern program json => return query pattern (← program.mapM f) json
  | stats program json => return stats (← program.mapM f) json
  | agent episodes seed => return agent episodes seed

/-- What the user asks for. -/
inductive Request where
  /-- To carry out a command. -/
  | command (c : Command String)
  /-- To be told something. -/
  | tell (text : String)
  /-- Nothing that makes sense. -/
  | misuse

/-! ## Grammars -/

/-- The option for a program to load first. -/
def fileOption : Parameter :=
  { name := "file", about := "Program to load first", placeholder := some "FILE"
    accepts := fun path => !path.isEmpty }

/-- Whether a value is a size. -/
def isSize (value : String) : Bool :=
  (Config.sizeOfText? value).isSome

/-- The grammar of `run`. -/
def runGrammar : Grammar where
  name := "run"
  about := "Execute a program: add its statements, evaluate its \x60!\x60 directives"
  required := some { name := "FILE", accepts := fun path => !path.isEmpty }
  options := [
    { name := "maintain", about := "Run background decay-and-forget while the program executes" }]

/-- The grammar of `eval`. -/
def evalGrammar : Grammar where
  name := "eval"
  about := "Evaluate a single expression"
  required := some { name := "EXPR" }
  options := [fileOption]

/-- The grammar of `query`. -/
def queryGrammar : Grammar where
  name := "query"
  about := "Match a pattern against the atomspace"
  required := some { name := "PATTERN" }
  options := [fileOption, { name := "json", about := "Print matches as JSON" }]

/-- The grammar of `stats`. -/
def statsGrammar : Grammar where
  name := "stats"
  about := "Show atomspace statistics"
  options := [fileOption, { name := "json", about := "Print statistics as JSON" }]

/-- The grammar of `agent`. -/
def agentGrammar : Grammar where
  name := "agent"
  about := "Train an agent in the three-state chain world"
  options := [
    { name := "episodes", placeholder := some "EPISODES", standard := some "5", accepts := isSize },
    { name := "seed", about := "Seed for reproducible action selection"
      placeholder := some "SEED", accepts := isSize }]

/-- A command with its grammar: how its arguments, once read, are understood. It is refused when a
required value is missing. -/
structure Form where
  grammar : Grammar
  /-- The command that arguments stand for. -/
  command? : Arguments → Option (Command String)

/-- The commands. -/
def forms : List Form := [
  { grammar := runGrammar
    command? := fun a => a.required.map fun file => .run file (a.flags.contains "maintain") },
  { grammar := evalGrammar
    command? := fun a => a.required.map fun expression => .eval expression (a.values.lookup "file") },
  { grammar := queryGrammar
    command? := fun a => a.required.map fun pattern =>
      .query pattern (a.values.lookup "file") (a.flags.contains "json") },
  { grammar := statsGrammar
    command? := fun a => some (.stats (a.values.lookup "file") (a.flags.contains "json")) },
  { grammar := agentGrammar
    command? := fun a =>
      let episodes := (a.values.lookup "episodes").bind Config.sizeOfText?
      some (.agent (episodes.getD 5) ((a.values.lookup "seed").bind Config.sizeOfText?)) }]

/-! ## Reading -/

/-- The text about the whole program. -/
def overview : String :=
  programHelp (forms.map Form.grammar)

/-- The request of a command with its arguments. -/
def Form.request (f : Form) (args : List String) : Request :=
  match Arguments.read f.grammar {} args with
  | .error .help => .tell f.grammar.help
  | .error .misuse => .misuse
  | .ok a => (f.command? a).elim .misuse .command

/-- The request for help about what the names lead to. -/
def helpRequest : List String → Request
  | [] => .tell overview
  | ["help"] => .tell helpHelp
  | [name] => (forms.find? (·.grammar.name == name)).elim .misuse fun f => .tell f.grammar.help
  | _ => .misuse

/-- The request that arguments make. -/
def Request.ofArguments : List String → Request
  | [] => .misuse
  | first :: rest =>
    if first = "--help" || first.startsWith "-h" then .tell overview
    else if first = "--version" || first.startsWith "-V" then
      .tell (programName ++ " " ++ version ++ "\n")
    else if first = "help" then helpRequest rest
    else (forms.find? (·.grammar.name == first)).elim .misuse fun f => f.request rest

end Atomspace.CommandLine
