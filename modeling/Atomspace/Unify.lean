import Atomspace.Bindings
/-!
# Unification

`unify` looks for bindings that make two atoms equal, on top of bindings it is given. It works off
a list of pairs of atoms that are still to be made equal; `Unifier.step` settles the first of them.

Seeded bindings are taken unchecked and may be cyclic. A run over acyclic bindings ends; over cyclic
ones it may take the same atoms apart for ever.
-/

namespace Atomspace

/-- A unification under way. -/
structure Unifier (ν : Type) where
  /-- The pairs still to be made equal, first one first. -/
  pending : List (Atom ν × Atom ν)
  /-- The bindings made so far. -/
  bindings : Bindings ν
  /-- The variables whose seeded value was compared with a second one. A variable that comes up
  here again stands on a cycle. -/
  reopened : List String := []

namespace Unifier

variable {ν : Type} [Scalar ν]

/-- Makes a variable equal to an atom. A variable that occurs inside the atom admits no solution;
a variable bound already has its value compared with the atom. -/
def assign (u : Unifier ν) (name : String) (a : Atom ν) : Option (Unifier ν) :=
  let value := u.bindings.subst a
  match value with
  | .var other =>
    if other = name then some u else bindTo value
  | _ => bindTo value
where
  /-- The case of an atom other than the variable itself. -/
  bindTo (value : Atom ν) : Option (Unifier ν) :=
    if value.vars.contains name then none
    else
      match u.bindings.find? name with
      | some old =>
        if u.reopened.contains name then none
        else some { u with
          pending := (old, value) :: u.pending
          reopened := name :: u.reopened }
      | none => some { u with bindings := u.bindings.insert name value }

/-- Settles the first pending pair, if there is one: equal atoms are dropped, a variable is
assigned, expressions of one length are taken apart. Anything else is a clash. -/
def step (u : Unifier ν) : Option (Unifier ν) :=
  match u.pending with
  | [] => some u
  | (l, r) :: rest =>
    let left := u.bindings.subst l
    let right := u.bindings.subst r
    let u := { u with pending := rest }
    if left == right then some u
    else
      match left, right with
      | .var name, _ => u.assign name right
      | _, .var name => u.assign name left
      | .expr as, .expr bs =>
        if as.length = bs.length then some { u with pending := as.zip bs ++ rest } else none
      | _, _ => none

/-- Works off all pending pairs: the bindings when no pair is left, none at a clash. A run that meets
neither goes on for ever. -/
def run (u : Unifier ν) : Option (Bindings ν) :=
  if u.pending.isEmpty then some u.bindings
  else
    match u.step with
    | none => none
    | some v => v |>.run
partial_fixpoint

/-- The beginning of a unification. -/
def start (left right : Atom ν) (initial : Bindings ν) : Unifier ν :=
  { pending := [(left, right)], bindings := initial }

end Unifier

variable {ν : Type} [Scalar ν]

/-- Bindings that extend the given ones and make the two atoms equal, if there are any. -/
def unify (left right : Atom ν) (initial : Bindings ν) : Option (Bindings ν) :=
  (Unifier.start left right initial).run

/-- Bindings that satisfy both sets of equations, if there are any. -/
def Bindings.merge (b c : Bindings ν) : Option (Bindings ν) :=
  let start : Unifier ν := { pending := [], bindings := b }
  let opened := c.values.entries.foldlM (fun u e => u.assign e.1 e.2) start
  opened.bind Unifier.run

end Atomspace
