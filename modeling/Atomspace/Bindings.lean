import Atomspace.Atom
import Atomspace.Table
/-!
# Bindings

Values of variables, and what an atom becomes when they are put in. Substitution follows chains: a
value is itself substituted. Bindings are *acyclic* when no variable is met again inside its own
value; seeded bindings need not be, and then a variable met again is left in place.
-/

namespace Atomspace

/-- Values of variables, by name. -/
structure Bindings (ν : Type) where
  /-- The value of each bound variable. -/
  values : Table (Atom ν)

namespace Bindings

variable {ν : Type}

instance : EmptyCollection (Bindings ν) := ⟨⟨∅⟩⟩

instance : Inhabited (Bindings ν) := ⟨∅⟩

/-- The value a variable is bound to, as it was given. -/
def find? (b : Bindings ν) (name : String) : Option (Atom ν) :=
  b.values.get? name

/-- Binds a variable, whatever it was bound to before. -/
def insert (b : Bindings ν) (name : String) (a : Atom ν) : Bindings ν :=
  ⟨b.values.insert name a⟩

/-- Frees a variable. -/
def erase (b : Bindings ν) (name : String) : Bindings ν :=
  ⟨b.values.erase name⟩

theorem find?_insert (b : Bindings ν) (name other : String) (a : Atom ν) :
    (b.insert name a).find? other = if other = name then some a else b.find? other :=
  b.values.get?_insert name other a

theorem find?_erase (b : Bindings ν) (name other : String) :
    (b.erase name).find? other = if other = name then none else b.find? other :=
  b.values.get?_erase name other

/-- The number of bound variables. -/
def size (b : Bindings ν) : Nat :=
  b.values.size

/-- Whether no variable is bound. -/
def isEmpty (b : Bindings ν) : Bool :=
  b.values.isEmpty

/-- What a variable stands for: its value with all variables replaced in turn. While a variable is
being replaced it is free, so a cycle ends where it closes; `n` bounds the length of a chain. -/
def expand : Nat → Bindings ν → String → Atom ν
  | 0, _, name => .var name
  | n + 1, b, name =>
    match b.find? name with
    | none => .var name
    | some a => a.bind (expand n (b.erase name))

/-- Replaces every bound variable by what it stands for. No chain is longer than the number of
bound variables, since each step frees one. -/
def subst (b : Bindings ν) (a : Atom ν) : Atom ν :=
  a.bind (b.expand b.size)

/-- What a bound variable stands for. -/
def resolve? (b : Bindings ν) (name : String) : Option (Atom ν) :=
  (b.find? name).map b.subst

/-- The bindings in the order of their variables, as `{$x=a, $y=b}`. -/
def text [Scalar ν] (b : Bindings ν) : String :=
  let sorted := b.values.entries.mergeSort fun e f => decide (e.1 ≤ f.1)
  "\x7b" ++ ", ".intercalate (sorted.map fun e => "$" ++ e.1 ++ "=" ++ e.2.text) ++ "\x7d"

end Bindings

end Atomspace
