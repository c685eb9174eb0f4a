import Atomspace.Space
import Atomspace.Unify
/-!
# Queries

A query asks for all stored atoms that unify with a pattern. A pattern with a concrete head only
looks at the bucket of that head and at the open bucket; other patterns look at the whole store.
The variables of a stored atom are renamed first, each time with a new number.

Every match is an access, and the matches come in the order of their scores.
-/

namespace Atomspace

/-- A stored atom that unifies with a pattern. -/
structure Match (ν : Type) where
  atom : Atom ν
  /-- The bindings under which it equals the pattern. -/
  bindings : Bindings ν
  /-- The score of its truth at the time of the match. -/
  score : ν

/-- The variables of the pattern in order, each with the text of what it stands for. Variables of
the stored atom, which carry a number, are left out. -/
def Match.view {ν : Type} [Scalar ν] (m : Match ν) : List (String × String) :=
  let own := m.bindings.values.keys.filter fun name => !name.contains '#'
  let shown := own.filterMap fun name =>
    (m.bindings.resolve? name).map fun a => ("$" ++ name, a.text)
  shown.mergeSort fun x y => decide (x.1 ≤ y.1)

namespace Space

variable {ν : Type} [Scalar ν]

/-- The keys of the stored atoms that are worth unifying with a pattern. -/
def candidates (s : Space ν) (pattern : Atom ν) : List String :=
  match pattern with
  | .var _ | .expr [] | .expr (.var _ :: _) => s.slots.keys
  | .expr (head :: _) => s.bucket head.key ++ s.bucket openHead
  | a => if s.contains a.key then [a.key] else []

/-- Whether an atom has as many children as a pattern that is an expression. -/
def fits (pattern a : Atom ν) : Bool :=
  match pattern.children? with
  | none => true
  | some children => a.children?.any fun l => l.length == children.length

/-- The atom with its variables renamed by the next number. An atom without variables uses up no
number. -/
def refresh (s : Space ν) (a : Atom ν) : Atom ν × Space ν :=
  if a.hasVars then (a.rename s.renamings, { s with renamings := s.renamings + 1 }) else (a, s)

/-- Matches a pattern with the atom under a key. Atoms of too little confidence and expressions of
another length are passed over before anything is renamed. -/
def examine (s : Space ν) (pattern : Atom ν) (key : String) : Option (Match ν) × Space ν :=
  match s.slots.get? key with
  | none => (none, s)
  | some slot =>
    let truth := slot.value.truth
    if Scalar.lt truth.confidence s.config.minConfidence || !fits pattern slot.atom then (none, s)
    else
      let (candidate, s) := s.refresh slot.atom
      match unify pattern candidate ∅ with
      | none => (none, s)
      | some bindings =>
        (some { atom := slot.atom, bindings, score := truth.score },
          s.touch key s.config.accessBoost)

/-- Matches a pattern with the atoms under the given keys, one after the other. -/
def examineAll (s : Space ν) (pattern : Atom ν) : List String → List (Match ν) × Space ν
  | [] => ([], s)
  | key :: keys =>
    let (found, s) := s.examine pattern key
    let (rest, s) := s.examineAll pattern keys
    (found.toList ++ rest, s)

/-- All stored atoms that unify with a pattern, best score first, within the limits on candidates
and matches. -/
def query (s : Space ν) (pattern : Atom ν) : List (Match ν) × Space ν :=
  let (found, s) := s.examineAll pattern ((s.candidates pattern).take s.config.maxCandidates)
  let ranked := found.mergeSort fun m n => Scalar.rankLE n.score m.score
  (ranked.take s.config.maxResults, s)

end Space

end Atomspace
