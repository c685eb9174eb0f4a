import Atomspace.Eval
import Atomspace.Reader
/-!
# Programs

A program is a text of statements: atoms to add to the space, and atoms to evaluate. A text with an
error in it is not run at all.
-/

namespace Atomspace

/-- An atom that a program asked to evaluate, with its results. -/
structure Output (ν : Type) where
  atom : Atom ν
  results : List (Atom ν)

namespace Evaluator

variable {ν : Type} [Scalar ν]

/-- Runs statements in order. -/
def execute (e : Evaluator ν) : List (Statement ν) → Space ν → List (Output ν) × Space ν
  | [], s => ([], s)
  | .assert a :: rest, s => e.execute rest (s.add a).2
  | .evaluate a :: rest, s =>
    let (results, s) := e.evaluate a s
    let (outputs, s) := e.execute rest s
    ({ atom := a, results } :: outputs, s)

/-- Runs a program. When the text has an error the space stays as it is. -/
def runProgram (e : Evaluator ν) (text : String) (s : Space ν) :
    Except ReadError (List (Output ν)) × Space ν :=
  match readProgram text with
  | .error error => (.error error, s)
  | .ok statements =>
    let (outputs, s) := e.execute statements s
    (.ok outputs, s)

end Evaluator

end Atomspace
