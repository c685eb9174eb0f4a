import Atomspace.Eval
/-!
# Utilities

What is known about the worth of actions: rules `(= (Utility action) number)` of the space. A rule
whose right side is no number counts by the first number among its results.
-/

namespace Atomspace

namespace Evaluator

variable {ν : Type} [Scalar ν]

/-- The expression that stands for the utility of an action. -/
def utilityKey (action : Atom ν) : Atom ν :=
  .expr [.symbol "Utility", action]

/-- The number that an atom stands for, or else the first number among its results. -/
def numberOf? (e : Evaluator ν) (a : Atom ν) (s : Space ν) : Option ν × Space ν :=
  match a.number? with
  | some x => (some x, s)
  | none =>
    let (results, s) := e.evaluate a s
    (results.findSome? Atom.number?, s)

/-- The matched rules whose utility is a number, with that number. -/
def numericRules (e : Evaluator ν) :
    List (Match ν) → Space ν → List (Atom ν × ν) × Space ν
  | [], s => ([], s)
  | m :: rest, s =>
    match m.bindings.resolve? "__utility" with
    | none => e.numericRules rest s
    | some value =>
      let (number, s) := e.numberOf? value s
      let (rules, s) := e.numericRules rest s
      ((number.map fun x => (m.atom, x)).toList ++ rules, s)

/-- The rules about the utility of an action, with their numbers. -/
def utilityRules (e : Evaluator ν) (action : Atom ν) (s : Space ν) :
    List (Atom ν × ν) × Space ν :=
  let (found, s) := s.query (.expr [.symbol "=", utilityKey action, .var "__utility"])
  e.numericRules found s

/-- The utility of an action: the greatest number of its rules. -/
def utility (e : Evaluator ν) (action : Atom ν) (s : Space ν) : Option ν × Space ν :=
  let (rules, s) := e.utilityRules action s
  ((Scalar.greatest? Prod.snd rules).map Prod.snd, s)

/-- The actions with a utility above a threshold, with that utility. -/
def promising (e : Evaluator ν) (threshold : ν) :
    List (Atom ν) → Space ν → List (Atom ν × ν) × Space ν
  | [], s => ([], s)
  | action :: rest, s =>
    let (utility, s) := e.utility action s
    let (others, s) := e.promising threshold rest s
    let kept := utility.filter fun u => Scalar.lt threshold u
    ((kept.map fun u => (action, u)).toList ++ others, s)

end Evaluator

end Atomspace
