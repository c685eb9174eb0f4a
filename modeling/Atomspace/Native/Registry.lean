import Atomspace.Native.Standard
/-!
# The registry

A registry knows which native code an expression runs: symbols run what is registered under their
name, function atoms run the code they were made for.
-/

namespace Atomspace

/-- The native code that heads of expressions stand for. -/
structure Registry (ν : Type) where
  /-- The code that symbols stand for, by name. -/
  functions : Table (Native ν)
  /-- The code that function atoms were made for, by name. There are none of other names. -/
  code : String → Option (Native ν)

namespace Registry

variable {ν : Type}

/-- The registry of the standard code, with the code that function atoms were made for. -/
def standardWith [Scalar ν] (code : String → Option (Native ν)) : Registry ν where
  functions := .ofList Native.standard
  code := code

/-- The registry of the standard code, where there are no function atoms. -/
def standard [Scalar ν] : Registry ν :=
  standardWith fun _ => none

/-- Lets the symbol of a name stand for code, whatever it stood for before. -/
def register (r : Registry ν) (name : String) (f : Native ν) : Registry ν :=
  { r with functions := r.functions.insert name f }

/-- The code that the head of an expression stands for, with its name. -/
def resolve? (r : Registry ν) : Atom ν → Option (String × Native ν)
  | .function name => (r.code name).map fun f => (name, f)
  | .symbol name => (r.functions.get? name).map fun f => (name, f)
  | _ => none

/-- What holds of the code of all symbols and of all function atoms holds of whatever is run. -/
theorem forall_resolve? {r : Registry ν} {P : Native ν → Prop}
    (hfunctions : ∀ name f, r.functions.get? name = some f → P f) (hcode : ∀ name f, r.code name = some f → P f) :
    ∀ head name f, r.resolve? head = some (name, f) → P f := by
  intro head name f h
  cases head with
  | symbol symbol =>
    obtain ⟨g, hg, e⟩ := Option.map_eq_some_iff.1 h
    cases e
    exact hfunctions _ _ hg
  | function symbol =>
    obtain ⟨g, hg, e⟩ := Option.map_eq_some_iff.1 h
    cases e
    exact hcode _ _ hg
  | _ => cases h

/-- What holds of all standard code, and of the code of function atoms, holds of whatever is run. -/
theorem forall_standardWith [Scalar ν] {P : Native ν → Prop} {code : String → Option (Native ν)}
    (h : ∀ e ∈ (Native.standard : List (String × Native ν)), P e.2) (hcode : ∀ name f, code name = some f → P f) :
    ∀ head name f, (standardWith code).resolve? head = some (name, f) → P f := by
  apply forall_resolve?
  · intro name f hf
    simp only [standardWith] at hf
    exact h (name, f) (Table.mem_of_get?_ofList hf)
  · exact hcode

theorem forall_standard [Scalar ν] {P : Native ν → Prop}
    (h : ∀ e ∈ (Native.standard : List (String × Native ν)), P e.2) :
    ∀ head name f, (standard : Registry ν).resolve? head = some (name, f) → P f :=
  forall_standardWith h nofun

/-- The registry as `Registry { functions: ["*", "+"] }`, with the names in order. -/
def text (r : Registry ν) : String :=
  let names := (r.functions.keys.mergeSort fun a b => decide (a ≤ b)).map Text.keyQuote
  "Registry \x7b functions: [" ++ ", ".intercalate names ++ "] \x7d"

end Registry

end Atomspace
