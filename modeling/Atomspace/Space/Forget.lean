import Atomspace.Space
/-!
# Forgetting

A maintenance cycle advances the clock, lets every priority decay, and when there is reason to
forgets the least important atoms. Protected symbols and variables are never forgotten.

There is reason to forget when the space exceeds the trigger size, or when the atoms that may be
forgotten exceed a share of it. Forgetting stops at the target size.
-/

namespace Atomspace

/-- What a maintenance cycle did. -/
structure ForgetReport where
  /-- The tick of the cycle. -/
  tick : Nat
  /-- The number of atoms whose priority decayed. -/
  decayed : Nat
  /-- The number of atoms that could be forgotten. -/
  candidates : Nat
  /-- The number of atoms forgotten. -/
  removed : Nat
  sizeBefore : Nat
  sizeAfter : Nat
  /-- Whether there was reason to forget. -/
  triggered : Bool

namespace Space

variable {ν : Type} [Scalar ν]

/-- Advances the clock and lets every priority decay. -/
def fade (s : Space ν) : Space ν :=
  let decay (v : Valuation ν) : Valuation ν := { v with priority := v.priority.decay s.config }
  { s with
    clock := s.clock + 1
    slots := ⟨s.slots.entries.map fun e => (e.1, { e.2 with value := decay e.2.value })⟩ }

/-- The effective priority of a stored atom at the current tick. -/
def importance (s : Space ν) (slot : Slot ν) : ν :=
  slot.value.effective s.clock s.config.recencyTau

/-- Whether an atom may be forgotten. -/
def isForgettable (s : Space ν) (slot : Slot ν) : Bool :=
  Scalar.lt (s.importance slot) s.config.minPriority && !slot.atom.isVar && !isProtected slot.atom

/-- The keys of the atoms that may be forgotten, least important first. -/
def forgettable (s : Space ν) : List String :=
  let weighed := s.slots.entries.filterMap fun e =>
    if s.isForgettable e.2 then some (e.1, s.importance e.2) else none
  (weighed.mergeSort fun x y => Scalar.rankLE x.2 y.2).map Prod.fst

/-- The size at which forgetting stops. -/
def targetSize (c : SpaceConfig ν) : Nat :=
  Scalar.toSize (Scalar.ofInt c.triggerSize * c.targetRatio : ν)

/-- Whether there is reason to forget, given the number of atoms that may be forgotten. -/
def isCrowded (s : Space ν) (candidates : Nat) : Bool :=
  decide (s.config.triggerSize < s.size)
    || Scalar.lt (s.config.candidateFraction * Scalar.ofInt s.size) (Scalar.ofInt candidates)

/-- Drops the atom under a key if it may be forgotten. The answer tells whether it was dropped. -/
def forgetAt (s : Space ν) (key : String) : Bool × Space ν :=
  match s.slots.get? key with
  | none => (false, s)
  | some slot => if s.isForgettable slot then (true, s.drop key) else (false, s)

/-- Forgets the atoms under the given keys, in order, for as long as the space exceeds a size. The
answer is the number of atoms forgotten. -/
def shrink (target : Nat) : List String → Space ν → Nat × Space ν
  | [], s => (0, s)
  | key :: keys, s =>
    if s.size ≤ target then (0, s)
    else
      let (dropped, s) := s.forgetAt key
      let (removed, s) := shrink target keys s
      (dropped.toNat + removed, s)

/-- One maintenance cycle. -/
def forget (s : Space ν) : ForgetReport × Space ν :=
  let faded := s.fade
  let keys := faded.forgettable
  let triggered := faded.isCrowded keys.length
  let (removed, after) :=
    if triggered then shrink (targetSize s.config) keys faded else (0, faded)
  ({ tick := faded.clock
     decayed := s.size
     candidates := keys.length
     removed
     sizeBefore := s.size
     sizeAfter := after.size
     triggered }, after)

/-- A number of maintenance cycles. -/
def forgetTimes : Nat → Space ν → Space ν
  | 0, s => s
  | n + 1, s => forgetTimes n s.forget.2

end Space

/-- The number of cycles that start within a duration, both in milliseconds: one at every positive
multiple of the interval, which is at least one millisecond. -/
def MaintenanceConfig.cyclesWithin (c : MaintenanceConfig) (duration : Nat) : Nat :=
  (duration - 1) / max c.intervalMs 1

end Atomspace
