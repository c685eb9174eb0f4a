import Atomspace.World
/-!
# Chains

A chain of states with a first and a last one. In every state but the last there are two actions:
to move on to the next state, which earns the reward of the link between them, and to stay. The
episode ends in the last state.

An action may be performed without being on offer: staying in the last state earns the reward of
staying, and any action other than these two earns nothing and changes no state.
-/

namespace Atomspace

/-- A chain and where it stands. -/
structure ChainWorld (ν : Type) where
  states : List (Atom ν)
  /-- The rewards of the links, one less than there are states. -/
  rewards : List ν
  stayReward : ν
  /-- The number of the current state. -/
  position : Nat := 0
  steps : Nat := 0

namespace ChainWorld

variable {ν : Type}

/-- Goes back to the first state. -/
def reset (w : ChainWorld ν) : ChainWorld ν :=
  { w with position := 0, steps := 0 }

/-- The current state; an empty chain has none. -/
def current? (w : ChainWorld ν) : Option (Atom ν) :=
  w.states[w.position]?

/-- The action that moves on from a state. -/
def moveAction? (w : ChainWorld ν) (place : Nat) : Option (Atom ν) := do
  let source ← w.states[place]?
  let target ← w.states[place + 1]?
  return .expr [.symbol "Move", source, target]

/-- The action that stays in a state. -/
def stayAction? (w : ChainWorld ν) (place : Nat) : Option (Atom ν) :=
  w.states[place]?.map fun state => .expr [.symbol "Stay", state]

/-- The current state is all there is to perceive. -/
def percepts (w : ChainWorld ν) : List (Atom ν) :=
  w.current?.toList.map fun state => .expr [.symbol "At", state]

/-- Whether there is a state to move on to. -/
def isRunning (w : ChainWorld ν) : Bool :=
  decide (w.position + 1 < w.states.length)

/-- The actions on offer. -/
def actions (w : ChainWorld ν) : List (Atom ν) :=
  if w.isRunning then (w.moveAction? w.position).toList ++ (w.stayAction? w.position).toList
  else []

variable [Scalar ν]

/-- The chain of the symbols of the given names. Links without a reward earn nothing, and rewards
without a link are left out. -/
def ofNames (names : List String) (rewards : List ν) (stayReward : ν) : ChainWorld ν :=
  let links := names.length - 1
  { states := names.map Atom.symbol
    rewards := rewards.take links ++ List.replicate (links - rewards.length) 0.0
    stayReward }

/-- Three states with small and large reward. -/
def threeStates : ChainWorld ν :=
  ofNames ["A", "B", "Goal"] [0.1, 1.0] 0.0

/-- Performs an action, which counts as a step whatever it is. The answer is the reward. -/
def execute (w : ChainWorld ν) (action : Atom ν) : ν × ChainWorld ν :=
  let w := { w with steps := w.steps + 1 }
  if w.moveAction? w.position == some action then
    (w.rewards[w.position]?.getD 0.0, { w with position := w.position + 1 })
  else if w.stayAction? w.position == some action then (w.stayReward, w)
  else (0.0, w)

instance : World (ChainWorld ν) ν where
  percepts := percepts
  actions w _ := (w.actions, w)
  execute w action :=
    let (reward, w) := w.execute action
    ((w.percepts, reward), w)
  isRunning := isRunning

end ChainWorld

end Atomspace
