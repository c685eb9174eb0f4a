import Atomspace.Space
/-!
# Native code

Native code is applied to atoms and may use the space. It answers with one atom, or fails with a
cause. Failing is no disaster: an expression whose native code fails is just not reduced by it.
-/

namespace Atomspace

/-- Why native code gives no result. -/
inductive NativeError (ν : Type) where
  | notNumber (atom : Atom ν)
  | wrongCount (name : String) (expected given : Nat)
  /-- An operation on whole numbers without a result in range. -/
  | undefinedWhole (name : String) (left right : Int64)
  /-- An operation on numbers without a finite result. -/
  | notFinite (name : String)
  /-- A match against something other than the space itself. -/
  | foreignSource (atom : Atom ν)
  /-- The code never gives a result. -/
  | refused

/-- The wording of an error. -/
def NativeError.message {ν : Type} [Scalar ν] : NativeError ν → String
  | notNumber atom => "not a number: " ++ atom.text
  | wrongCount name expected given =>
    name ++ " expects " ++ toString expected ++ " arguments, got " ++ toString given
  | undefinedWhole name left right =>
    "integer " ++ name ++ " failed for " ++ toString left ++ " and " ++ toString right
  | notFinite name => name ++ " produced a non-finite result"
  | foreignSource atom => "match only supports &self, got " ++ atom.text
  | refused => "refused"

/-- Native code: from arguments and a space to a result and the space afterwards. -/
abbrev Native (ν : Type) :=
  List (Atom ν) → Space ν → Except (NativeError ν) (Atom ν) × Space ν

namespace Native

variable {ν : Type}

/-- Native code that leaves the space alone. -/
def pure (f : List (Atom ν) → Except (NativeError ν) (Atom ν)) : Native ν :=
  fun args s => (f args, s)

/-- Always the same atom. -/
def constant (a : Atom ν) : Native ν :=
  pure fun _ => .ok a

/-- The list of the arguments. -/
def collect : Native ν :=
  pure fun args => .ok (.list args)

/-- The expression of the arguments. -/
def compose : Native ν :=
  pure fun args => .ok (.expr args)

/-- The number of stored atoms. -/
def spaceSize : Native ν :=
  fun _ s => (.ok (.int (Int64.ofNat s.size)), s)

/-- No result. -/
def refuse : Native ν :=
  pure fun _ => .error .refused

end Native

end Atomspace
