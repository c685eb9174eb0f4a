import Atomspace.Eval.Results
import Atomspace.Native.Registry
/-!
# Evaluation

An expression is reduced by the rules `(= left right)` that the space holds and by native code,
and may have several results. The steps are tried in this order, and their results are collected:

* rules without variables on their left side,
* rules with variables on their left side,
* the native code of the head, applied to the values of the arguments,
* if there is no result so far, the expression with its children evaluated.

What a rule or native code gives is evaluated again, one level deeper. An expression that is being
evaluated further up stands for itself, which ends loops.
-/

namespace Atomspace

/-- The state of an evaluation. -/
structure Evaluation (ν : Type) where
  space : Space ν
  /-- The keys of the expressions that are being evaluated further up. -/
  path : List String := []

/-- Computations on the state of an evaluation. -/
abbrev Evaluating (ν : Type) := StateM (Evaluation ν)

/-- What evaluation depends on besides the space. -/
structure Evaluator (ν : Type) where
  config : EvalConfig
  registry : Registry ν

namespace Evaluator

variable {ν : Type} [Scalar ν]

/-- A query in the course of an evaluation. -/
def ask (pattern : Atom ν) : Evaluating ν (List (Match ν)) :=
  fun e =>
    let (found, space) := e.space.query pattern
    (found, { e with space })

/-! ## Declared types -/

/-- The name under which a head may have a declared type. -/
def declaredName? : Atom ν → Option String
  | .symbol name => some name
  | .function name => some name
  | _ => none

/-- The number of arguments of a declared type `(-> argument … result)`. -/
def arrowArity? (m : Match ν) : Option Nat :=
  match m.bindings.resolve? "__type" with
  | some (.expr (.symbol "->" :: parts)) => some (parts.length - 1)
  | _ => none

/-- Whether a number of arguments agrees with the first arrow type declared for a head, if there is
one. -/
def arityAgrees (head : Atom ν) (count : Nat) : Evaluating ν Bool :=
  match declaredName? head with
  | none => return true
  | some name => do
    let declarations ← ask (.expr [.symbol ":", .symbol name, .var "__type"])
    return (declarations.findSome? arrowArity?).all (· == count)

/-! ## Reduction -/

/-- The left side of a rule, which is its second child of three. -/
def leftSide? : Atom ν → Option (Atom ν)
  | .expr [_, left, _] => some left
  | _ => none

/-- What a match of `(= atom $__result)` reduces the atom to, if the rule has no variable on its
left side. -/
def groundResult? (m : Match ν) : Option (Atom ν) :=
  if (leftSide? m.atom).any Atom.hasVars then none else m.bindings.resolve? "__result"

/-- What a match of `(= $__pattern $__template)` reduces the atom to, if the rule has a variable
on its left side. -/
def generalResult? (a : Atom ν) (m : Match ν) : Option (Atom ν) := do
  let left ← m.bindings.resolve? "__pattern"
  let template ← m.bindings.resolve? "__template"
  let b ← if left.hasVars then unify left a ∅ else none
  return b.subst template

section
variable (recur : Atom ν → Evaluating ν (List (Atom ν)))

/-- Applies the rules without variables on their left side. Besides the results the answer has the
keys of the rules that were applied. -/
def applyGround : List (Match ν) → Results ν → Evaluating ν (List String × Results ν)
  | [], r => return ([], r)
  | m :: rest, r =>
    if r.isFull then return ([], r)
    else
      match groundResult? m with
      | none => applyGround rest r
      | some result => do
        let found ← recur result
        let (applied, r) ← applyGround rest (r.extend found)
        return (m.atom.key :: applied, r)

/-- Applies the rules with variables on their left side, except those already applied. -/
def applyGeneral (a : Atom ν) (applied : List String) :
    List (Match ν) → Results ν → Evaluating ν (Results ν)
  | [], r => return r
  | m :: rest, r =>
    if r.isFull then return r
    else if applied.contains m.atom.key then applyGeneral a applied rest r
    else
      match generalResult? a m with
      | none => applyGeneral a applied rest r
      | some result => do
        let found ← recur result
        applyGeneral a applied rest (r.extend found)

/-- The values of the arguments of native code, if each has exactly one. -/
def argumentValues : List (Atom ν) → Evaluating ν (Option (List (Atom ν)))
  | [] => return some []
  | a :: rest => do
    match ← recur a with
    | [value] => return (← argumentValues rest).map (value :: ·)
    | _ => return none

/-- Runs native code in the course of an evaluation. -/
def call (f : Native ν) (args : List (Atom ν)) :
    Evaluating ν (Except (NativeError ν) (Atom ν)) :=
  fun e =>
    let (result, space) := f args e.space
    (result, { e with space })

/-- Applies the native code of the head, if there is some. -/
def applyNative (e : Evaluator ν) (head : Atom ν) (args : List (Atom ν)) (r : Results ν) :
    Evaluating ν (Results ν) :=
  match e.registry.resolve? head with
  | none => return r
  | some (_, f) => do
    match ← argumentValues recur args with
    | none => return r
    | some values =>
      match ← call f values with
      | .error _ => return r
      | .ok result => return r.extend (← recur result)

/-- Reduces an expression in all ways, unless its arguments disagree with its declared type. -/
def reduce (e : Evaluator ν) (head : Atom ν) (args : List (Atom ν)) :
    Evaluating ν (Results ν) := do
  let a : Atom ν := .expr (head :: args)
  let r : Results ν := { limit := max e.config.maxResults 1 }
  if ← arityAgrees head args.length then
    let ground ← ask (.expr [.symbol "=", a, .var "__result"])
    let (applied, r) ← applyGround recur ground r
    let general ← ask (.expr [.symbol "=", .var "__pattern", .var "__template"])
    let r ← applyGeneral recur a applied general r
    applyNative recur e head args r
  else return r

/-- Evaluates the children of an expression. A child with several values is left as it is. -/
def evalChildren : List (Atom ν) → Evaluating ν (List (Atom ν))
  | [] => return []
  | a :: rest => do
    let values ← recur a
    let a := match values with
      | [value] => if value == a then a else value
      | _ => a
    return a :: (← evalChildren rest)

/-- Evaluates an atom, with `recur` for everything one level deeper. -/
def step (e : Evaluator ν) (a : Atom ν) : Evaluating ν (List (Atom ν)) :=
  match a with
  | .expr (head :: args) => do
    let key := a.key
    if (← get).path.contains key then return [a]
    modify fun st => { st with path := key :: st.path }
    let r ← reduce recur e head args
    let results ←
      if r.atoms.isEmpty then pure [.expr (← evalChildren recur (head :: args))] else pure r.atoms
    modify fun st => { st with path := st.path.erase key }
    return results
  | _ => return [a]

end

/-- Evaluates an atom with a number of levels. Without a level left an atom stands for itself. -/
def evalPath (e : Evaluator ν) : Nat → Atom ν → Evaluating ν (List (Atom ν))
  | 0, a => return [a]
  | depth + 1, a => step (evalPath e depth) e a

/-- The results of an atom, with a number of levels. -/
def eval (e : Evaluator ν) (a : Atom ν) (depth : Nat) (s : Space ν) : List (Atom ν) × Space ν :=
  let (results, st) := (e.evalPath depth a).run { space := s }
  (results, st.space)

/-- The results of an atom, with the configured number of levels. -/
def evaluate (e : Evaluator ν) (a : Atom ν) (s : Space ν) : List (Atom ν) × Space ν :=
  e.eval a e.config.maxDepth s

end Evaluator

end Atomspace
