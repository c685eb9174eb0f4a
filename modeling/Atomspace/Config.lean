import Atomspace.Scalar
/-!
# Configuration

The parameters of a space, of evaluation, of an agent and of background maintenance, with their
defaults. Any number is accepted; the operations clamp where they need a range.
-/

namespace Atomspace

/-- Attention, query and forgetting parameters of a space. -/
structure SpaceConfig (ν : Type) where
  /-- Short-term priority of a new atom. -/
  initialShortTerm : ν
  /-- Long-term priority of a new atom. -/
  initialLongTerm : ν
  /-- Short-term boost of every access. -/
  accessBoost : ν
  /-- Share of the short-term priority that a maintenance cycle takes. -/
  shortTermDecay : ν
  /-- Share of what the short-term priority loses that goes to the long-term priority. -/
  transfer : ν
  /-- Share of the long-term priority that a maintenance cycle takes. -/
  longTermDecay : ν
  /-- Long-term gain for each unit of short-term gain. -/
  longTermRate : ν
  /-- Boost for each unit of confidence that a revision of a truth gains. -/
  revisionBoost : ν
  /-- The gain of confidence above which a change of a truth is a revision. -/
  revisionThreshold : ν
  /-- Atoms of less confidence are not candidates of a query. -/
  minConfidence : ν
  /-- The greatest number of candidates a query looks at. -/
  maxCandidates : Nat
  /-- The greatest number of matches a query answers. -/
  maxResults : Nat
  /-- The effective priority below which an atom may be forgotten. -/
  minPriority : ν
  /-- The size above which a cycle always forgets. -/
  triggerSize : Nat
  /-- The share of the trigger size at which forgetting stops. -/
  targetRatio : ν
  /-- The share of forgettable atoms above which a cycle also forgets. -/
  candidateFraction : ν
  /-- The number of cycles in which recency falls by a factor of Euler's number. -/
  recencyTau : ν

/-- The limits of evaluation. -/
structure EvalConfig where
  /-- The number of nested evaluations. -/
  maxDepth : Nat
  /-- The greatest number of results of an expression; at least one is always kept. -/
  maxResults : Nat

/-- The parameters of an agent. -/
structure AgentConfig (ν : Type) where
  /-- The probability of an action picked at random. -/
  exploration : ν
  /-- The share of the way to the reward that a utility moves. -/
  learningRate : ν
  /-- Only utilities above this are followed. -/
  utilityThreshold : ν
  /-- The evidence count of a percept. -/
  perceptionCount : ν
  /-- The boost of a percept. -/
  perceptionBoost : ν
  /-- The boost of a learned utility. -/
  rewardBoost : ν
  /-- The greatest number of cycles of a run. -/
  maxCycles : Nat

/-- Background maintenance. -/
structure MaintenanceConfig where
  /-- Whether maintenance runs beside every program. -/
  enabled : Bool
  /-- The milliseconds between two cycles. -/
  intervalMs : Nat

/-- All parameters. -/
structure Config (ν : Type) where
  /-- The filter of the log. -/
  logLevel : String
  space : SpaceConfig ν
  eval : EvalConfig
  agent : AgentConfig ν
  maintenance : MaintenanceConfig

section
variable {ν : Type} [Scalar ν]

/-- The default parameters of a space. -/
instance : Inhabited (SpaceConfig ν) where
  default :=
    { initialShortTerm := 0.1
      initialLongTerm := 0.0
      accessBoost := 0.05
      shortTermDecay := 0.1
      transfer := 0.2
      longTermDecay := 0.01
      longTermRate := 0.1
      revisionBoost := 0.5
      revisionThreshold := 0.01
      minConfidence := 0.0
      maxCandidates := 10000
      maxResults := 1000
      minPriority := 0.05
      triggerSize := 10000
      targetRatio := 0.8
      candidateFraction := 0.25
      recencyTau := 3.0 }

/-- The default limits of evaluation. -/
instance : Inhabited EvalConfig where
  default := { maxDepth := 32, maxResults := 64 }

/-- The default parameters of an agent. -/
instance : Inhabited (AgentConfig ν) where
  default :=
    { exploration := 0.1
      learningRate := 0.5
      utilityThreshold := 0.0
      perceptionCount := 10.0
      perceptionBoost := 0.3
      rewardBoost := 0.8
      maxCycles := 100 }

/-- Maintenance is off unless asked for, and then runs once a second. -/
instance : Inhabited MaintenanceConfig where
  default := { enabled := false, intervalMs := 1000 }

/-- All defaults. -/
instance : Inhabited (Config ν) where
  default :=
    { logLevel := "info", space := default, eval := default, agent := default
      maintenance := default }

end

end Atomspace
