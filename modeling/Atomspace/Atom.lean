import Atomspace.Scalar
import Atomspace.Text.Quoted
/-!
# Atoms

The values a space is made of: symbols, variables, expressions, and grounded atoms that wrap a
number, a text, a list or the name of native code. Each atom has a *key*, the text that identifies
it, and a *text*, its form in the surface syntax.

Atoms are compared by kind and key. Keys of atoms that the reader builds tell different atoms
apart; a symbol built with an arbitrary name may share its key with another atom. Variables carry a
sign in front of their name, which the reader and renaming both put there. A variable put together
without it is nothing but a *handle*, a kind with a key to look something up by.
-/

namespace Atomspace

/-- An atom over a type of numbers. -/
inductive Atom (ν : Type) where
  /-- A named constant. -/
  | symbol (name : String)
  /-- A placeholder. The name does not include the sign `$` it is written with. -/
  | var (name : String)
  /-- A sequence of atoms. -/
  | expr (children : List (Atom ν))
  /-- A whole number of 64 bits. -/
  | int (value : Int64)
  | float (value : ν)
  | str (value : String)
  /-- A list of atoms. Its items are data: variables in them stand for themselves. -/
  | list (items : List (Atom ν))
  /-- Native code, known by its name. -/
  | function (name : String)

namespace Atom

variable {ν : Type}

instance : Inhabited (Atom ν) := ⟨expr []⟩

/-- The four sorts of atoms that comparisons and statistics tell apart. -/
inductive Kind where
  | symbol
  | var
  | expr
  /-- A wrapped value: a number, a text, a list or native code. -/
  | grounded
deriving DecidableEq, Repr

/-- The name of a kind. -/
def Kind.name : Kind → String
  | .symbol => "symbol"
  | .var => "variable"
  | .expr => "expression"
  | .grounded => "grounded"

/-- The kind of an atom. -/
def kind : Atom ν → Kind
  | symbol _ => .symbol
  | var _ => .var
  | expr _ => .expr
  | _ => .grounded

/-- The variable of a name that may be written with or without its sign. -/
def named (name : String) : Atom ν :=
  match name.toList with
  | '$' :: cs => var (String.ofList cs)
  | _ => var name

/-! ## Keys and texts -/

section
variable [Scalar ν]

mutual

/-- The text that identifies an atom. -/
def key : Atom ν → String
  | symbol name => name
  | var name => "$" ++ name
  | expr children => "(" ++ " ".intercalate (keys children) ++ ")"
  | int value => "&int " ++ toString value
  | float value => "&float " ++ Scalar.key value
  | str value => "&str " ++ Text.keyQuote value
  | list items => "&list [" ++ " ".intercalate (keys items) ++ "]"
  | function name => "&fn " ++ name

/-- The keys of a list of atoms. -/
def keys : List (Atom ν) → List String
  | [] => []
  | a :: l => key a :: keys l

end

mutual

/-- The form of an atom in the surface syntax. -/
def text : Atom ν → String
  | symbol name => name
  | var name => "$" ++ name
  | expr children => "(" ++ " ".intercalate (texts children) ++ ")"
  | int value => toString value
  | float value => Scalar.text value
  | str value => Text.surfaceQuote value
  | list items => "[" ++ " ".intercalate (texts items) ++ "]"
  | function name => name

/-- The surface forms of a list of atoms. -/
def texts : List (Atom ν) → List String
  | [] => []
  | a :: l => text a :: texts l

end

/-- Atoms count as equal when they are of one kind and have one key. -/
instance : BEq (Atom ν) where
  beq a b := a.kind = b.kind && a.key == b.key

/-- What is read of an atom that is only looked up: its kind and its key. A variable that is put together
by hand may have any text for its key, with the sign or without, and can be looked up like any other atom. -/
structure Handle where
  kind : Kind
  key : String
deriving DecidableEq, Repr

/-- The handle of an atom. -/
@[coe] def handle (a : Atom ν) : Handle := ⟨a.kind, a.key⟩

instance : CoeOut (Atom ν) Handle := ⟨handle⟩

@[simp] theorem kind_handle (a : Atom ν) : a.handle.kind = a.kind := rfl

@[simp] theorem key_handle (a : Atom ν) : a.handle.key = a.key := rfl

end

/-! ## Variables -/

mutual

/-- Whether a variable occurs in the atom. Lists are data and have none. -/
def hasVars : Atom ν → Bool
  | var _ => true
  | expr children => anyHasVars children
  | _ => false

/-- Whether a variable occurs in one of the atoms. -/
def anyHasVars : List (Atom ν) → Bool
  | [] => false
  | a :: l => hasVars a || anyHasVars l

end

mutual

/-- The names of the variables of an atom, once for each occurrence, from left to right. -/
def vars : Atom ν → List String
  | var name => [name]
  | expr children => varsAll children
  | _ => []

/-- The names of the variables of a list of atoms. -/
def varsAll : List (Atom ν) → List String
  | [] => []
  | a :: l => vars a ++ varsAll l

end

mutual

/-- Puts an atom in the place of every variable, all at once. -/
def bind (f : String → Atom ν) : Atom ν → Atom ν
  | var name => f name
  | expr children => expr (bindAll f children)
  | a => a

/-- Puts an atom in the place of every variable of a list of atoms. -/
def bindAll (f : String → Atom ν) : List (Atom ν) → List (Atom ν)
  | [] => []
  | a :: l => bind f a :: bindAll f l

end

/-- The name that a variable gets in a renaming, which has a number. -/
def numbered (name : String) (n : Nat) : String :=
  name ++ "#" ++ toString n

/-- Renames every variable apart from those of other atoms by a numbered suffix. -/
def rename (n : Nat) : Atom ν → Atom ν :=
  bind fun name => var (numbered name n)

/-! ## Lists of atoms -/

theorem keys_eq_map [Scalar ν] (l : List (Atom ν)) : keys l = l.map key := by
  induction l with
  | nil => rfl
  | cons a l ih => rw [keys, ih, List.map_cons]

theorem anyHasVars_eq_any (l : List (Atom ν)) : anyHasVars l = l.any hasVars := by
  induction l with
  | nil => rfl
  | cons a l ih => rw [anyHasVars, ih, List.any_cons]

theorem varsAll_eq_flatMap (l : List (Atom ν)) : varsAll l = l.flatMap vars := by
  induction l with
  | nil => rfl
  | cons a l ih => rw [varsAll, ih, List.flatMap_cons]

theorem bindAll_eq_map (f : String → Atom ν) (l : List (Atom ν)) : bindAll f l = l.map (bind f) := by
  induction l with
  | nil => rfl
  | cons a l ih => rw [bindAll, ih, List.map_cons]

@[simp] theorem bind_var (f : String → Atom ν) (name : String) : bind f (var name) = f name := rfl

@[simp] theorem bind_expr (f : String → Atom ν) (l : List (Atom ν)) :
    bind f (expr l) = expr (l.map (bind f)) := by
  rw [bind, bindAll_eq_map]

@[simp] theorem vars_var (name : String) : vars (var name : Atom ν) = [name] := rfl

@[simp] theorem vars_expr (l : List (Atom ν)) : vars (expr l) = l.flatMap vars := by
  rw [vars, varsAll_eq_flatMap]

/-! ## Parts -/

/-- The children of an expression. -/
def children? : Atom ν → Option (List (Atom ν))
  | expr children => some children
  | _ => none

/-- The first child of an expression. -/
def head? (a : Atom ν) : Option (Atom ν) :=
  a.children?.bind List.head?

/-- The name of a symbol. -/
def symbol? : Atom ν → Option String
  | symbol name => some name
  | _ => none

/-- Whether the atom is a variable. -/
def isVar : Atom ν → Bool
  | var _ => true
  | _ => false

/-- The number that a whole number or a number stands for. -/
def number? [Scalar ν] : Atom ν → Option ν
  | int value => some (Scalar.ofInt value.toInt)
  | float value => some value
  | _ => none

end Atom

end Atomspace
