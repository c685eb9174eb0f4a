import Atomspace.Double
import Atomspace.Proofs.Substitution
/-!
# Substitutions come to an end

Replacing a variable by its value goes on inside the value, and there is no bound on how far that
leads. `Replaces` is this recursion without any bound; it keeps a path of the variables that are being
replaced, and leaves a variable that is met again on its path in place. It comes to an end for every
atom and all bindings, cyclic ones too, and its only answer is the substitution (`replaces_iff`).

Over acyclic bindings the answer is fully resolved: no bound variable is left in it
(`subst_resolves`).
-/

namespace Atomspace

variable {ν : Type}

namespace Bindings

/-! ## The course of a replacement -/

/-- The bindings without those of the variables on a path. -/
def without (b : Bindings ν) : List String → Bindings ν
  | [] => b
  | x :: path => (b.without path).erase x

theorem find?_without (b : Bindings ν) (path : List String) (x : String) :
    (b.without path).find? x = if x ∈ path then none else b.find? x := by
  induction path with
  | nil => simp [without]
  | cons y path ih =>
    rw [without, find?_erase, ih]
    by_cases h : x = y <;> simp [h]

/-- Replacing the variables of an atom comes to an end, with an answer. The path has the variables whose
values are being looked into. -/
inductive Replaces (b : Bindings ν) : List String → Atom ν → Atom ν → Prop
  | constant {path : List String} {a : Atom ν} : a.isConstant = true → Replaces b path a a
  | expr {path : List String} {l : List (Atom ν)} {answer : Atom ν → Atom ν} :
      (∀ a ∈ l, Replaces b path a (answer a)) → Replaces b path (.expr l) (.expr (l.map answer))
  | free {path : List String} {x : String} : b.find? x = none → Replaces b path (.var x) (.var x)
  /-- A variable that is met again stays. -/
  | again {path : List String} {x : String} : x ∈ path → Replaces b path (.var x) (.var x)
  | bound {path : List String} {x : String} {value a : Atom ν} : x ∉ path → b.find? x = some value →
      Replaces b (x :: path) value a → Replaces b path (.var x) a

variable {b : Bindings ν} {path : List String} {a c : Atom ν}

/-- While a variable is replaced its binding is as good as erased. -/
theorem Replaces.eq_subst (h : Replaces b path a c) : c = (b.without path).subst a := by
  induction h with
  | constant hc => exact (Atom.bind_constant hc _).symm
  | expr _ ih =>
    rw [subst_expr]
    exact congrArg Atom.expr (List.map_congr_left ih)
  | free hfree =>
    refine (subst_var_of_free ?_).symm
    rw [find?_without, hfree, ite_self]
  | again hpath =>
    refine (subst_var_of_free ?_).symm
    rw [find?_without, if_pos hpath]
  | @bound path x value a hpath hvalue _ ih =>
    have hfind : (b.without path).find? x = some value := by rw [find?_without, if_neg hpath, hvalue]
    rw [subst_var_of_find hfind]
    exact ih

theorem replaces_subst (b : Bindings ν) (path : List String) (a : Atom ν) :
    Replaces b path a ((b.without path).subst a) := by
  -- every value that is looked into leaves fewer variables to replace, and within one value atoms get
  -- smaller
  induction hn : (b.without path).size using Nat.strongRecOn generalizing path a with
  | _ n ih =>
  induction a using Atom.induct with
  | var x =>
    cases hx : (b.without path).find? x with
    | none =>
      rw [subst_var_of_free hx]
      rw [find?_without] at hx
      split at hx
      · rename_i hpath
        exact .again hpath
      · exact .free hx
    | some value =>
      have hlt := size_erase_lt hx
      rw [subst_var_of_find hx]
      rw [find?_without] at hx
      split at hx
      · cases hx
      · rename_i hpath
        exact .bound hpath hx (ih _ (hn ▸ hlt) (x :: path) value rfl)
  | expr l hl =>
    rw [subst_expr]
    exact .expr hl
  | constant a hc =>
    rw [subst, Atom.bind_constant hc]
    exact .constant hc

/-- Replacing the variables of an atom comes to an end, with the substitution as its only answer. -/
theorem replaces_iff (b : Bindings ν) (a c : Atom ν) : Replaces b [] a c ↔ c = b.subst a := by
  constructor
  · exact Replaces.eq_subst
  · rintro rfl
    exact replaces_subst b [] a

/-! ## Full resolution -/

/-- The atom with its bound variables replaced by their values, and nothing done inside the values. -/
def replaceOnce (b : Bindings ν) (a : Atom ν) : Atom ν :=
  a.bind fun x => (b.find? x).getD (.var x)

theorem Acyclic.subst_replaceOnce (hb : b.Acyclic) (a : Atom ν) : b.subst (b.replaceOnce a) = b.subst a := by
  refine (Atom.bind_bind a _ _).trans (Atom.bind_congr a fun x _ => ?_)
  show b.subst ((b.find? x).getD (.var x)) = b.subst (.var x)
  cases hx : b.find? x with
  | none => rfl
  | some value => exact (hb.subst_var_of_find hx).symm

/-- A substitution comes to an end over any bindings. Over acyclic ones it leaves no bound variable, it
does not matter whether the first replacements are made beforehand, and a second substitution changes
nothing. -/
theorem subst_resolves (b : Bindings ν) (a : Atom ν) :
    (∀ c, Replaces b [] a c ↔ c = b.subst a) ∧
      (b.Acyclic → (∀ x ∈ (b.subst a).vars, b.find? x = none) ∧
        b.subst (b.replaceOnce a) = b.subst a ∧ b.subst (b.subst a) = b.subst a) := by
  refine ⟨replaces_iff b a, fun hb => ⟨?_, hb.subst_replaceOnce a, hb.unnested.subst_subst a⟩⟩
  intro x hx
  exact hb.free_of_mem_vars_subst hx

/-- Bindings in which `$z` leads to `$y` and that to `$x`. -/
def winding : Bindings Double :=
  ((∅ : Bindings Double).insert "z" (.expr [.symbol "f", .var "y"])).insert "y"
    (.expr [.symbol "pair", .var "x", .var "x"])

theorem winding_acyclic : winding.Acyclic := by
  have hfirst : ((∅ : Bindings Double).insert "z" (.expr [.symbol "f", .var "y"])).Acyclic :=
    acyclic_empty.insert (a := .expr [.symbol "f", .var "y"]) rfl (by decide)
  exact hfirst.insert (a := .expr [.symbol "pair", .var "x", .var "x"]) rfl (by decide)

theorem subst_resolves_winding : winding.Acyclic ∧
    Replaces winding [] (.var "z") (.expr [.symbol "f", .expr [.symbol "pair", .var "x", .var "x"]]) ∧
    winding.subst (.expr [.symbol "f", .var "y"]) = winding.subst (.var "z") ∧
    winding.subst (winding.subst (.var "z")) = winding.subst (.var "z") := by
  obtain ⟨hends, hresolved⟩ := subst_resolves winding (.var "z")
  obtain ⟨-, honce, htwice⟩ := hresolved winding_acyclic
  exact ⟨winding_acyclic, (hends _).2 rfl, honce, htwice⟩

end Bindings

end Atomspace
