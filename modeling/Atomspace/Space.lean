import Atomspace.Atom
import Atomspace.Config
import Atomspace.Table
import Atomspace.Valuation
/-!
# The space

A space stores atoms, one for each key, each with a valuation. Expressions are also filed by the
key of their head, so that a query with a concrete head need not look at the whole store. A clock
counts maintenance cycles, and a counter numbers the renamings of stored variables.

Every access of an atom boosts its priority and stamps it with the current tick.
-/

namespace Atomspace

/-- A stored atom with its valuation. -/
structure Slot (ν : Type) where
  atom : Atom ν
  value : Valuation ν

/-- A store of atoms. -/
structure Space (ν : Type) where
  config : SpaceConfig ν
  /-- The stored atoms by key. -/
  slots : Table (Slot ν) := ∅
  /-- The keys of the stored expressions, filed by the key of their head. -/
  index : Table (List String) := ∅
  clock : Nat := 0
  renamings : Nat := 0

namespace Space

/-- The symbols that every space holds from the start and never gives up. -/
def protectedNames : List String := [
  "=", ":", "->", "Type", "True", "False", "&self", "match", "Implies", "Seq", "Utility",
  "Atom", "Symbol", "Variable", "Expression", "Grounded", "Number", "String"]

/-- The bucket of the expressions whose head is a variable, or which have no head. -/
def openHead : String := "$"

variable {ν : Type}

/-- Whether what is looked up is a protected symbol. -/
def isProtected (h : Atom.Handle) : Bool :=
  h.kind = .symbol && protectedNames.contains h.key

/-- The number of stored atoms. -/
def size (s : Space ν) : Nat :=
  s.slots.size

/-- Whether an atom is stored under the key. -/
def contains (s : Space ν) (key : String) : Bool :=
  s.slots.contains key

/-- The keys filed under a head. -/
def bucket (s : Space ν) (head : String) : List String :=
  (s.index.get? head).getD []

/-- Puts a key into the bucket of a head, unless it is there. -/
def file (s : Space ν) (head key : String) : Space ν :=
  let keys := s.bucket head
  if keys.contains key then s else { s with index := s.index.insert head (keys ++ [key]) }

/-- Takes a key out of the bucket of a head. An empty bucket is given up. -/
def unfile (s : Space ν) (head key : String) : Space ν :=
  let keys := (s.bucket head).filter fun k => !(k == key)
  { s with index := if keys.isEmpty then s.index.erase head else s.index.insert head keys }

variable [Scalar ν]

/-- Where an expression is filed: the key of its head, or the open bucket. Other atoms are not
filed. -/
def headKey? : Atom ν → Option String
  | .expr [] => some openHead
  | .expr (.var _ :: _) => some openHead
  | .expr (head :: _) => some head.key
  | _ => none

/-- What is known about the atom of the same key. -/
def value? (s : Space ν) (a : Atom ν) : Option (Valuation ν) :=
  (s.slots.get? a.key).map Slot.value

/-- Boosts the slot under a key and stamps it with the current tick. -/
def touch (s : Space ν) (key : String) (amount : ν) : Space ν :=
  let access (v : Valuation ν) : Valuation ν :=
    { v with priority := v.priority.boost amount s.config.longTermRate, lastAccess := s.clock }
  { s with slots := s.slots.modify key fun slot => { slot with value := access slot.value } }

/-- The stored atom that counts as equal to the given one, or else the given one. -/
def stored (s : Space ν) (a : Atom ν) : Atom ν :=
  match s.slots.get? a.key with
  | some slot => if slot.atom == a then slot.atom else a
  | none => a

/-- The atom as it is stored: children that are stored themselves are taken from their slots. -/
def share (s : Space ν) : Atom ν → Atom ν
  | .expr children => .expr (children.map s.stored)
  | a => a

/-- Stores an atom under its key with an initial valuation, and files it. -/
def store (s : Space ν) (a : Atom ν) : Space ν :=
  let priority := Priority.ofLevels s.config.initialShortTerm s.config.initialLongTerm
  let slot : Slot ν := { atom := s.share a, value := .fresh priority s.clock }
  let key := slot.atom.key
  let s := match headKey? slot.atom with
    | some head => s.file head key
    | none => s
  { s with slots := s.slots.insert key slot }

/-- Stores an atom unless its key is taken, and counts as an access either way. The answer is the
stored atom. -/
def add (s : Space ν) (a : Atom ν) : Atom ν × Space ν :=
  let s := if s.contains a.key then s else s.store a
  let s := s.touch a.key s.config.accessBoost
  (((s.slots.get? a.key).map Slot.atom).getD a, s)

/-- A space that holds the protected symbols. -/
def empty (config : SpaceConfig ν) : Space ν :=
  protectedNames.foldl (fun s name => (s.add (.symbol name)).2) { config }

instance : Inhabited (Space ν) := ⟨empty default⟩

/-- Changes the valuation of an atom. This stamps it with the current tick, and a gain of
confidence above the threshold earns a boost in proportion. The answer is the new valuation. -/
def update (s : Space ν) (a : Atom ν) (f : Valuation ν → Valuation ν) :
    Option (Valuation ν) × Space ν :=
  match s.value? a with
  | none => (none, s)
  | some old =>
    let new := { f old with lastAccess := s.clock }
    let gain := new.truth.confidence - old.truth.confidence
    let new :=
      if Scalar.lt s.config.revisionThreshold gain then
        { new with
          priority := new.priority.boost (gain * s.config.revisionBoost) s.config.longTermRate }
      else new
    (some new, { s with slots := s.slots.modify a.key fun slot => { slot with value := new } })

/-- Stores an atom and merges a truth into what is known about it. The answer is the stored atom. -/
def assert (s : Space ν) (a : Atom ν) (t : Truth ν) : Atom ν × Space ν :=
  let (stored, s) := s.add a
  (stored, (s.update stored fun v => { v with truth := v.truth.merge t }).2)

/-- The atom under a key; finding it is an access. -/
def get? (s : Space ν) (key : String) : Option (Atom ν) × Space ν :=
  ((s.slots.get? key).map Slot.atom, s.touch key s.config.accessBoost)

/-- Boosts an atom by an amount. The answer tells whether it is stored. -/
def boost (s : Space ν) (a : Atom ν) (amount : ν) : Bool × Space ν :=
  (s.contains a.key, s.touch a.key amount)

/-- Takes the atom under a key out of the store and out of the bucket it is filed in. -/
def drop (s : Space ν) (key : String) : Space ν :=
  match s.slots.get? key with
  | none => s
  | some slot =>
    let s := match headKey? slot.atom with
      | some head => s.unfile head key
      | none => s
    { s with slots := s.slots.erase key }

/-- Removes the atom of the same key, unless what is looked up is a protected symbol. The answer tells
whether there was one. -/
def remove (s : Space ν) (h : Atom.Handle) : Bool × Space ν :=
  if isProtected h then (false, s) else (s.contains h.key, s.drop h.key)

end Space

end Atomspace
