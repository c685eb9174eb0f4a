import Atomspace.Space
/-!
# Statistics

Counts and means over the atoms of a space.
-/

namespace Atomspace

/-- Counts and means over a space. -/
structure Stats (ν : Type) where
  /-- The number of atoms. -/
  total : Nat
  /-- The number of atoms of each kind. -/
  ofKind : Atom.Kind → Nat
  /-- The number of expressions with the head `=`. -/
  rules : Nat
  /-- The number of expressions with the head `:`. -/
  typeDeclarations : Nat
  protectedSymbols : Nat
  meanShortTerm : ν
  meanLongTerm : ν
  meanConfidence : ν
  clock : Nat

namespace Space

variable {ν : Type} [Scalar ν]

/-- The number of expressions with a symbol of the given name as head. -/
def countHead (s : Space ν) (name : String) : Nat :=
  s.slots.values.countP fun slot => slot.atom.head?.bind Atom.symbol? == some name

/-- The mean of a weight over all atoms; zero for an empty space. -/
def mean (s : Space ν) (weight : Valuation ν → ν) : ν :=
  let total := s.slots.values.foldl (fun acc slot => acc + weight slot.value) 0.0
  total / Scalar.ofInt (max s.size 1)

/-- The statistics of a space. -/
def stats (s : Space ν) : Stats ν where
  total := s.size
  ofKind kind := s.slots.values.countP fun slot => slot.atom.kind = kind
  rules := s.countHead "="
  typeDeclarations := s.countHead ":"
  protectedSymbols := s.slots.values.countP fun slot => isProtected slot.atom
  meanShortTerm := s.mean fun v => v.priority.shortTerm
  meanLongTerm := s.mean fun v => v.priority.longTerm
  meanConfidence := s.mean fun v => v.truth.confidence
  clock := s.clock

end Space

end Atomspace
