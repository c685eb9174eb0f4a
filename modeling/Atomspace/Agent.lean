import Atomspace.Agent.Utility
import Atomspace.Digest.Blake3
import Atomspace.Random
import Atomspace.World
/-!
# Agents

An agent goes through cycles of perceiving, choosing an action, acting and learning. All it knows
is in a space: percepts are facts, observed transitions are `(Implies (Seq state action) next)`, and
what it has learned of an action is a rule `(= (Utility action) number)`.

Chance enters in two places only: whether to explore, and which of several actions to take.
-/

namespace Atomspace

/-- Where an agent is in its cycle. -/
inductive Agent.Phase where
  | idle
  | perceiving
  | deciding
  | acting
  | learning
deriving DecidableEq, Repr

/-- An agent with all it knows. -/
structure Agent (ρ ν : Type) where
  config : AgentConfig ν
  evaluator : Evaluator ν
  space : Space ν
  random : ρ
  phase : Agent.Phase := .idle

namespace Agent

/-- What happened in a cycle. -/
inductive Outcome (ν : Type) where
  /-- There was no action to take. -/
  | idle (state : Atom ν)
  /-- An action led from one state to another and earned a reward; the utility is the one learned. -/
  | acted (state action next : Atom ν) (reward utility : ν)

/-- Why a run ended. -/
inductive StopReason where
  /-- The goal matched something in the space. -/
  | goalReached
  /-- The episode of the world was over. -/
  | environmentStopped
  /-- The cycles were used up. -/
  | cycleBudget
deriving DecidableEq, Repr

/-- What happened in a run. -/
structure RunSummary (ν : Type) where
  cycles : Nat
  idleCycles : Nat
  totalReward : ν
  stop : StopReason

variable {ρ ν : Type} [Scalar ν]

/-- Stores a percept as a fact and boosts it. -/
def notice (a : Agent ρ ν) (percept : Atom ν) : Agent ρ ν :=
  let truth := Truth.ofEvidence 1.0 a.config.perceptionCount
  let (stored, space) := a.space.assert percept truth
  { a with space := (space.boost stored a.config.perceptionBoost).2 }

/-- What tells states apart: the keys of the percepts, each once and in order, one on a line. -/
def fingerprint (percepts : List (Atom ν)) : String :=
  let keys := percepts.map Atom.key
  "\n".intercalate ((keys.mergeSort fun a b => decide (a ≤ b)).eraseReps)

/-- The symbol of the state in which there are the given percepts. -/
def stateSymbol (percepts : List (Atom ν)) : Atom ν :=
  .symbol ("State-" ++ ((Digest.Blake3.hex (fingerprint percepts)).take 16).toString)

/-- Takes in percepts. The answer is the symbol of the state, itself stored as a fact. -/
def perceive (a : Agent ρ ν) (percepts : List (Atom ν)) : Atom ν × Agent ρ ν :=
  let a := percepts.foldl notice { a with phase := .perceiving }
  let truth := Truth.ofEvidence 1.0 a.config.perceptionCount
  let (state, space) := a.space.assert (stateSymbol percepts) truth
  (state, { a with space })

/-- Learns from a transition: it is one more observation of itself, and the utility of the action
moves towards the reward by the learning rate. The answer is the new utility. -/
def learn (a : Agent ρ ν) (state action next : Atom ν) (reward : ν) : ν × Agent ρ ν :=
  let transition : Atom ν :=
    .expr [.symbol "Implies", .expr [.symbol "Seq", state, action], next]
  let (_, space) := a.space.assert transition (.observed 1.0)
  let (rules, space) := a.evaluator.utilityRules action space
  let best := Scalar.greatest? Prod.snd rules
  let old := (best.map Prod.snd).getD 0.0
  let count := ((best.bind fun rule => space.value? rule.1).map fun v => v.truth.count).getD 0.0
  let new := old + a.config.learningRate * (reward - old)
  let key := Evaluator.utilityKey action
  let stale := rules.filter fun rule => (rule.1.children?.bind (·[1]?)) == some key
  let space := stale.foldl (fun s rule => (s.remove rule.1).2) space
  let (rule, space) := space.assert (.expr [.symbol "=", key, .float new])
    (.ofEvidence 1.0 (count + 1.0))
  let (_, space) := space.boost rule a.config.rewardBoost
  (new, { a with space, phase := .learning })

variable [RandomSource ρ]

/-- One of several things at random. -/
def pick {α : Type} (a : Agent ρ ν) (choices : List α) : Option α × Agent ρ ν :=
  let (i, random) := RandomSource.below choices.length a.random
  (choices[i]?, { a with random })

/-- Chooses an action: at random with the probability of exploring, and otherwise one of the
greatest utility above the threshold. Several of those are told apart by chance, and when there is
none any action will do. -/
def select (a : Agent ρ ν) (actions : List (Atom ν)) : Option (Atom ν) × Agent ρ ν :=
  let a := { a with phase := .deciding }
  if actions.isEmpty then (none, a)
  else
    let (chance, random) : ν × ρ := RandomSource.uniform a.random
    let a := { a with random }
    if Scalar.lt chance a.config.exploration then a.pick actions
    else
      let (ranked, space) := a.evaluator.promising a.config.utilityThreshold actions a.space
      let a := { a with space }
      let best := (Scalar.greatest? Prod.snd ranked).map Prod.snd
      let tied := ranked.filter fun (_, u) => best.any (Scalar.eq u)
      match tied with
      | [] => a.pick actions
      | [only] => (some only.1, a)
      | _ => a.pick (tied.map Prod.fst)

variable {ω : Type} [World ω ν]

/-- One cycle in a world. -/
def step (a : Agent ρ ν) (w : ω) : Outcome ν × Agent ρ ν × ω :=
  let (state, a) := a.perceive (World.percepts w)
  let (actions, w) := World.actions w state
  match a.select actions with
  | (none, a) => (.idle state, { a with phase := .idle }, w)
  | (some action, a) =>
    let ((percepts, reward), w) := World.execute w action
    let (next, a) := a.perceive percepts
    let (utility, a) := a.learn state action next reward
    (.acted state action next reward utility, { a with phase := .idle }, w)

/-- Whether the goal, if there is one, matches something in the space. -/
def meets (a : Agent ρ ν) (goal : Option (Atom ν)) : Bool × Agent ρ ν :=
  match goal with
  | none => (false, a)
  | some g =>
    let (found, space) := a.space.query g
    (!found.isEmpty, { a with space })

/-- A run of at most so many further cycles. It ends when the goal matches something in the space,
or when the episode of the world is over. -/
def runWithin (goal : Option (Atom ν)) :
    Nat → RunSummary ν → Agent ρ ν → ω → RunSummary ν × Agent ρ ν × ω
  | cycles, summary, a, w =>
    let (reached, a) := a.meets goal
    if reached then ({ summary with stop := .goalReached }, a, w)
    else if !World.isRunning w then ({ summary with stop := .environmentStopped }, a, w)
    else
      match cycles with
      | 0 => ({ summary with stop := .cycleBudget }, a, w)
      | cycles + 1 =>
        let (outcome, a, w) := a.step w
        let summary := match outcome with
          | .idle _ =>
            { summary with cycles := summary.cycles + 1, idleCycles := summary.idleCycles + 1 }
          | .acted _ _ _ reward _ =>
            { summary with
              cycles := summary.cycles + 1
              totalReward := summary.totalReward + reward }
        runWithin goal cycles summary a w

/-- A run of at most so many cycles. -/
def run (a : Agent ρ ν) (w : ω) (goal : Option (Atom ν)) (maxCycles : Nat) :
    RunSummary ν × Agent ρ ν × ω :=
  runWithin goal maxCycles
    { cycles := 0, idleCycles := 0, totalReward := 0.0, stop := .cycleBudget } a w

end Agent

end Atomspace
