import Atomspace.Priority
import Atomspace.Truth
/-!
# Valuations

What a space knows about a stored atom besides the atom: its truth, its priority, and the tick of
the last access. Recency fades with the ticks since then.
-/

namespace Atomspace

/-- The truth and priority of a stored atom, and when it was last used. -/
structure Valuation (ν : Type) where
  truth : Truth ν
  priority : Priority ν
  lastAccess : Nat

namespace Valuation

variable {ν : Type} [Scalar ν]

/-- The valuation of a new atom. -/
def fresh (priority : Priority ν) (tick : Nat) : Valuation ν where
  truth := .unknown
  priority := priority
  lastAccess := tick

/-- How recent the last access is: one at the tick of the access, falling exponentially. -/
def recency (v : Valuation ν) (now : Nat) (tau : ν) : ν :=
  let age : ν := Scalar.ofInt ((now - v.lastAccess : Nat) : Int)
  Scalar.exp (-age / Scalar.max tau Scalar.epsilon)

/-- The priority by which atoms are forgotten. -/
def effective (v : Valuation ν) (now : Nat) (tau : ν) : ν :=
  v.priority.raw * v.recency now tau

end Valuation

end Atomspace
