import Atomspace.Atom
/-!
# Worlds

The world that an agent acts in. Percepts and actions are atoms; what they mean is the world's own
affair.
-/

namespace Atomspace

/-- Worlds with the states `ω`. -/
class World (ω : Type) (ν : outParam Type) where
  /-- What there is to perceive. -/
  percepts : ω → List (Atom ν)
  /-- The actions on offer in a state of the agent. Asking for them may move the world on. -/
  actions : ω → Atom ν → List (Atom ν) × ω
  /-- Performs an action: the percepts that follow and the reward. -/
  execute : ω → Atom ν → (List (Atom ν) × ν) × ω
  /-- Whether the episode goes on. -/
  isRunning : ω → Bool

end Atomspace
