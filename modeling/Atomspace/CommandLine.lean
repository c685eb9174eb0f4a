import Atomspace.CommandLine.Report
import Atomspace.CommandLine.Request
import Atomspace.CommandLine.Workspace
import Atomspace.Random.ChaCha
import Atomspace.World.Chain
/-!
# The command line

Carries out requests. Every command starts from an empty space; what it prints is put together here
and written by the outermost layer, which also supplies a way to read files.
-/

namespace Atomspace.CommandLine

/-! ## Commands -/

/-- Runs a program and shows what it evaluated, and the size of the space. -/
def run (c : Config Double) (source : Source) : Except Failure String := do
  let (outputs, w) ← (Workspace.empty c).load source
  return lines (outputs.map outputLine) ++ "\n" ++ toString w.space.size ++ " atoms in space\n"

/-- Evaluates an expression and shows each result on a line. -/
def eval (c : Config Double) (expression : String) (source : Option Source) :
    Except Failure String := do
  let a ← readArgument "invalid expression" expression
  let w ← Workspace.start c source
  return lines ((w.evaluator.evaluate a w.space).1.map Atom.text)

/-- Matches a pattern and shows the matches. -/
def query (c : Config Double) (pattern : String) (source : Option Source) (json : Bool) :
    Except Failure String := do
  let a ← readArgument "invalid pattern" pattern
  let w ← Workspace.start c source
  let found := (w.space.query a).1
  return if json then (Text.Json.array (found.map matchDocument)).pretty ++ "\n"
    else matchReport found

/-- Shows the statistics of a space. -/
def stats (c : Config Double) (source : Option Source) (json : Bool) : Except Failure String := do
  let w ← Workspace.start c source
  let s := w.space.stats
  return if json then (statsDocument s).pretty ++ "\n" else lines (statsLines s)

/-- Runs episodes one after the other, each from the first state. The numbers start at `number`. -/
def episodes (c : Config Double) :
    Nat → Nat → Agent ChaCha Double → ChainWorld Double → List String × Agent ChaCha Double
  | _, 0, a, _ => ([], a)
  | number, count + 1, a, w =>
    let (summary, a, w) := a.run w.reset none c.agent.maxCycles
    let (rest, a) := episodes c (number + 1) count a w
    (episodeLine number summary :: rest, a)

/-- Lines with the learned utilities of actions. -/
def utilityLines (e : Evaluator Double) : List (Atom Double) → Space Double → List String
  | [], _ => []
  | action :: rest, s =>
    let (utility, s) := e.utility action s
    utilityLine action utility :: utilityLines e rest s

/-- Trains an agent in the chain of three states and shows what it learned. -/
def agent (c : Config Double) (count : Nat) (seed : UInt64) : String :=
  let w := Workspace.empty c
  let world : ChainWorld Double := .threeStates
  let (shown, a) := episodes c 1 count
    { config := c.agent, evaluator := w.evaluator, space := w.space, random := .ofSeed seed } world
  let actions := [0, 1].flatMap fun place =>
    (world.moveAction? place).toList ++ (world.stayAction? place).toList
  lines (shown ++ ["", "Learned utilities:"] ++ utilityLines a.evaluator actions a.space)

/-! ## Requests -/

/-- What the program leaves behind. -/
structure Outcome where
  code : Nat
  output : String := ""
  /-- What it reported as an error. -/
  errors : String := ""

/-- The outcome of a command. -/
def Outcome.ofResult : Except Failure String → Outcome
  | .ok output => { code := 0, output }
  | .error failure => { code := 1, errors := failure.report }

/-- Carries out a command. An agent without a seed takes its chance from the given one. Maintenance
beside a program only shows in programs that take longer than its interval. -/
def Command.perform (c : Config Double) (chance : UInt64) :
    Command Source → Except Failure String
  | run program _ => CommandLine.run c program
  | eval expression program => CommandLine.eval c expression program
  | query pattern program json => CommandLine.query c pattern program json
  | stats program json => CommandLine.stats c program json
  | agent count seed => .ok (CommandLine.agent c count ((seed.map UInt64.ofNat).getD chance))

/-- The name of the configuration file. -/
def configFile : String := ".cogspace/config.toml"

/-- Answers the arguments of the program. The configuration is loaded first, from the home
directory. -/
def respond {m : Type → Type} [Monad m] (read : String → m (Except FileError ByteArray))
    (readConfig : m (Except FileError ByteArray)) (env : String → Option String)
    (chance : UInt64) (args : List String) : m Outcome := do
  match Request.ofArguments args with
  | .misuse => return { code := 2, errors := overview }
  | .tell text => return { code := 0, output := text }
  | .command command =>
    match Config.load (← readConfig) env with
    | .error error => return .ofResult (.error { context := error.message, cause := error.cause })
    | .ok c =>
      let command ← command.withProgram fun path => return { path, contents := ← read path }
      return .ofResult (command.perform c chance)

end Atomspace.CommandLine
