import Atomspace.World
/-!
# Scripts

A world that plays prepared percepts, actions and rewards one after the other, over and over, and
lasts for a given number of ticks. The tick moves on with every action, and when there is no action
to choose from.
-/

namespace Atomspace

/-- A script and where it stands. -/
structure ScriptWorld (ν : Type) where
  /-- The percepts of each tick. -/
  percepts : List (List (Atom ν))
  /-- The actions on offer at each tick. -/
  actions : List (List (Atom ν))
  /-- The reward of each tick. -/
  rewards : List ν
  /-- The number of ticks of an episode. -/
  duration : Nat
  tick : Nat := 0

namespace ScriptWorld

variable {ν : Type} [Scalar ν]

/-- The item of a list for a tick, starting over at its end; an empty list has none. -/
def cue? {α : Type} (l : List α) (tick : Nat) : Option α :=
  l[tick % l.length]?

/-- Goes back to the first tick. -/
def reset (w : ScriptWorld ν) : ScriptWorld ν :=
  { w with tick := 0 }

/-- What there is to perceive at the current tick. -/
def current (w : ScriptWorld ν) : List (Atom ν) :=
  (cue? w.percepts w.tick).getD []

instance : World (ScriptWorld ν) ν where
  percepts := current
  actions w _ :=
    let offered := (cue? w.actions w.tick).getD []
    (offered, if offered.isEmpty then { w with tick := w.tick + 1 } else w)
  execute w _ :=
    let next := { w with tick := w.tick + 1 }
    ((next.current, (cue? w.rewards w.tick).getD 0.0), next)
  isRunning w := decide (w.tick < w.duration)

end ScriptWorld

end Atomspace
