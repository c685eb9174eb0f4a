import Atomspace.Native
import Atomspace.Space.Query
/-!
# Standard native code

Arithmetic and comparison of numbers, equality, and matching against the space. Two whole numbers
are combined exactly; as soon as one operand is not whole, both are read as numbers. Comparisons
always read them as numbers.
-/

namespace Atomspace

namespace Native

variable {ν : Type} [Scalar ν]

/-- An argument that is a number. -/
inductive Operand (ν : Type) where
  /-- A whole number. -/
  | whole (value : Int64)
  /-- Any other number. -/
  | real (value : ν)

/-- The number that an operand stands for. -/
def Operand.toReal : Operand ν → ν
  | whole n => Scalar.ofInt n.toInt
  | real x => x

/-- Reads an argument as a number. -/
def operand : Atom ν → Except (NativeError ν) (Operand ν)
  | .int n => .ok (.whole n)
  | .float x => .ok (.real x)
  | a => .error (.notNumber a)

/-- Reads exactly two numbers. -/
def operands (name : String) : List (Atom ν) → Except (NativeError ν) (Operand ν × Operand ν)
  | [a, b] => do return (← operand a, ← operand b)
  | args => .error (.wrongCount name 2 args.length)

/-- The whole number of 64 bits that equals an integer, if it is in range. -/
def whole? (n : Int) : Option Int64 :=
  if Int64.minValue.toInt ≤ n ∧ n ≤ Int64.maxValue.toInt then some (Int64.ofInt n) else none

/-- The quotient without its fraction; there is none by zero. -/
def quotient? (a b : Int) : Option Int :=
  if b = 0 then none else some (a.tdiv b)

/-- A truth value as an atom. -/
def truthAtom (b : Bool) : Atom ν :=
  .symbol (if b then "True" else "False")

/-- An arithmetic operation, given on integers and on numbers. -/
def arithmetic (name : String) (onInts : Int → Int → Option Int) (onReals : ν → ν → ν) : Native ν :=
  pure fun args => do
    match ← operands name args with
    | (.whole a, .whole b) =>
      match (onInts a.toInt b.toInt).bind whole? with
      | some n => .ok (.int n)
      | none => .error (.undefinedWhole name a b)
    | (a, b) =>
      let result := onReals a.toReal b.toReal
      if Scalar.isFinite result then .ok (.float result) else .error (.notFinite name)

/-- A comparison of two numbers. -/
def comparison (name : String) (holds : ν → ν → Bool) : Native ν :=
  pure fun args => do
    let (a, b) ← operands name args
    return truthAtom (holds a.toReal b.toReal)

/-- Whether two atoms are equal: numbers by value, anything else as atoms. -/
def equal (a b : Atom ν) : Bool :=
  match a.number?, b.number? with
  | some x, some y => Scalar.eq x y
  | _, _ => a == b

/-- Equality of two atoms as native code. -/
def equality : Native ν :=
  pure fun
    | [a, b] => .ok (truthAtom (equal a b))
    | args => .error (.wrongCount "==" 2 args.length)

/-- Queries the space for a pattern and lists the template for every match. The first argument
names the space. -/
def matchSpace : Native ν
  | [source, pattern, template], s =>
    if source.symbol? = some "&self" then
      let (found, s) := s.query pattern
      (.ok (.list (found.map fun m => m.bindings.subst template)), s)
    else (.error (.foreignSource source), s)
  | args, s => (.error (.wrongCount "match" 3 args.length), s)

/-- The standard code by name. -/
def standard : List (String × Native ν) := [
  ("+", arithmetic "+" (fun a b => some (a + b)) (· + ·)),
  ("-", arithmetic "-" (fun a b => some (a - b)) (· - ·)),
  ("*", arithmetic "*" (fun a b => some (a * b)) (· * ·)),
  ("/", arithmetic "/" quotient? (· / ·)),
  ("<", comparison "<" Scalar.lt),
  (">", comparison ">" fun a b => Scalar.lt b a),
  ("<=", comparison "<=" Scalar.le),
  (">=", comparison ">=" fun a b => Scalar.le b a),
  ("==", equality),
  ("match", matchSpace)]

end Native

end Atomspace
