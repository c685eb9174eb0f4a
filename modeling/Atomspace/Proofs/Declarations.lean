import Atomspace.Proofs.Lockstep
import Atomspace.Proofs.Retrieval
/-!
# What declares a type

The query for the declared type of a name has a pattern of three parts. What it unifies with has to become
`:` and the name in the first two, so the values that come up on the way are symbols (`Bindings.Nominal`), and
it can be said by hand what is found, whatever else is stored and however it is spelled: an arrow type is
read off exactly the atoms all of whose instances about the name have one
(`Evaluator.arrowArity?_eq_some_iff`, `Evaluator.exists_unify_typePattern`).
-/

namespace Atomspace

variable {ν : Type}

/-- The atom has an instance `(: name type)`, and in all of them the type is an arrow type with a number of
arguments. -/
def Atom.Declares (name : String) (a : Atom ν) (arity : Nat) : Prop :=
  ∃ mark subject arrow parts, a = .expr [mark, subject, .expr (arrow :: parts)] ∧ arity = parts.length - 1 ∧
    (∃ f : String → Atom ν, mark.bind f = .symbol ":" ∧ subject.bind f = .symbol name) ∧
    ∀ f : String → Atom ν, mark.bind f = .symbol ":" → subject.bind f = .symbol name →
      arrow.bind f = .symbol "->"

namespace Atom

theorem Declares.fits {name : String} {a : Atom ν} {k : Nat} (h : a.Declares name k) :
    Space.fits (Evaluator.typePattern name) a = true := by
  obtain ⟨mark, subject, arrow, parts, rfl, -⟩ := h
  rfl

/-- Renamed atoms have the same instances. -/
theorem exists_bind_rename (n : Nat) (f : String → Atom ν) : ∃ g, ∀ a : Atom ν, (a.rename n).bind g = a.bind f := by
  have hinj : Function.Injective fun x => numbered x n := fun x y h => (numbered_eq_iff.1 h).1
  refine ⟨Function.extend (fun x => numbered x n) f fun _ => default, fun a => ?_⟩
  rw [bind_rename]
  exact congrArg (Atom.bind · a) (funext fun x => hinj.extend_apply f _ x)

end Atom

namespace Bindings

variable {b : Bindings ν}

/-! ## Symbols for values -/

/-- All values are symbols. -/
def Nominal (b : Bindings ν) : Prop := ∀ x a, b.find? x = some a → ∃ c, a = .symbol c

theorem nominal_empty : (∅ : Bindings ν).Nominal :=
  nofun

theorem Nominal.not_leads (hb : b.Nominal) (x y : String) : ¬ b.Leads x y := by
  rintro ⟨a, ha, hy⟩
  obtain ⟨c, rfl⟩ := hb x a ha
  cases hy

theorem Nominal.acyclic (hb : b.Nominal) : b.Acyclic := by
  intro x hx
  obtain ⟨y, hxy, -⟩ := Relation.TransGen.head'_iff.1 hx
  exact hb.not_leads x y hxy

theorem Nominal.insert (hb : b.Nominal) (x c : String) : (b.insert x (.symbol c)).Nominal := by
  intro y a ha
  rw [find?_insert] at ha
  split at ha
  · exact ⟨c, (Option.some.inj ha).symm⟩
  · exact hb y a ha

/-- Substitution brings no new variables in, and leaves only free ones. -/
theorem Nominal.mem_vars_subst (hb : b.Nominal) {a : Atom ν} {z : String} (h : z ∈ (b.subst a).vars) :
    z ∈ a.vars ∧ b.find? z = none := by
  obtain ⟨⟨x, hx, hxz⟩, -⟩ := Bindings.mem_vars_subst h
  rcases Relation.ReflTransGen.cases_head hxz with rfl | ⟨y, hxy, -⟩
  · exact ⟨hx, hb.acyclic.free_of_mem_vars_subst h⟩
  · exact absurd hxy (hb.not_leads x y)

theorem Nominal.subst_expr_iff (hb : b.Nominal) {a : Atom ν} {l : List (Atom ν)} :
    b.subst a = .expr l ↔ ∃ m, a = .expr m ∧ m.map b.subst = l := by
  constructor
  · intro h
    cases a with
    | var x =>
      cases hx : b.find? x with
      | none =>
        rw [subst_var_of_free hx] at h
        cases h
      | some v =>
        obtain ⟨c, rfl⟩ := hb x v hx
        rw [subst_var_of_find hx] at h
        cases h
    | expr m => exact ⟨m, rfl, Atom.expr.inj ((subst_expr b m).symm.trans h)⟩
    | _ => cases h
  · rintro ⟨m, rfl, rfl⟩
    exact subst_expr b m

/-- What an atom becomes is the symbol that all solutions make of it. -/
theorem Nominal.subst_eq_symbol_iff (hb : b.Nominal) {a : Atom ν} {c : String} :
    b.subst a = .symbol c ↔ ∀ f, b.Holds f → a.bind f = .symbol c := by
  constructor
  · intro h f hf
    rw [← hf.bind_subst, h]
    rfl
  · intro h
    exact (h _ hb.acyclic.holds_subst :)

/-- A variable that is bound to what an atom stands for stands for that. -/
theorem Nominal.resolve?_insert (hb : b.Nominal) {x : String} {a : Atom ν} (hocc : x ∉ a.vars) :
    (b.insert x (b.subst a)).resolve? x = some (b.subst a) := by
  rw [resolve?, find?_insert, if_pos rfl, Option.map_some]
  refine congrArg some (subst_of_free fun y hy => ?_)
  obtain ⟨hmem, hfree⟩ := hb.mem_vars_subst hy
  rw [find?_insert, if_neg (by rintro rfl; exact hocc hmem), hfree]

end Bindings

namespace Unifier

variable [Scalar ν] {b : Bindings ν} {o : List String} {rest : List (Atom ν × Atom ν)}

/-! ## Steps -/

theorem eq_symbol_of_beq {c : String} {a : Atom ν} (h : (Atom.symbol c == a) = true) : a = .symbol c := by
  obtain ⟨hkind, hkey⟩ := (Atom.beq_iff _ _).1 h
  cases a with
  | symbol d => exact congrArg Atom.symbol hkey.symm
  | _ => cases hkind

variable (o rest) in
/-- A symbol and an atom unify if some solution makes the atom the symbol. -/
theorem run_symbol (hb : b.Nominal) (c : String) (a : Atom ν) :
    (∃ b', b'.Nominal ∧ (∀ f, b'.Holds f ↔ b.Holds f ∧ a.bind f = .symbol c) ∧
      (∀ x ∉ a.vars, b.find? x = none → b'.find? x = none) ∧
      run ⟨(.symbol c, a) :: rest, b, o⟩ = run ⟨rest, b', o⟩) ∨
    (∀ f, b.Holds f → a.bind f ≠ .symbol c) ∧ run ⟨(.symbol c, a) :: rest, b, o⟩ = none := by
  have hne : (⟨(.symbol c, a) :: rest, b, o⟩ : Unifier ν).pending ≠ [] := List.cons_ne_nil _ _
  have hsettled := settled_step (u := ⟨(.symbol c, a) :: rest, b, o⟩) rfl
  have hsymbol : b.subst (.symbol c) = .symbol c := rfl
  rw [hsymbol] at hsettled
  generalize hv : b.subst a = v at hsettled
  have hsubst (f : String → Atom ν) (hf : b.Holds f) : a.bind f = v.bind f := hv ▸ (hf.bind_subst a).symm
  generalize hstep : step ⟨(.symbol c, a) :: rest, b, o⟩ = next at hsettled
  cases hsettled with
  | equal heq =>
    obtain rfl := eq_symbol_of_beq heq
    refine .inl ⟨b, hb, fun f => ⟨fun hf => ⟨hf, hsubst f hf⟩, And.left⟩, fun _ _ => id, run_of_step hne hstep⟩
  | @right _ x _ _ hassigned =>
    obtain ⟨hx, hfree⟩ := hb.mem_vars_subst (z := x) (by rw [hv]; exact List.mem_singleton_self x)
    rw [hsymbol] at hassigned
    cases hassigned with
    | occurs _ hocc => cases hocc
    | free =>
      refine .inl ⟨b.insert x (.symbol c), hb.insert x c, fun f => ?_, fun y hy hyfree => ?_, run_of_step hne hstep⟩
      · rw [Bindings.holds_insert hfree]
        refine and_congr_right fun hf => ?_
        rw [hsubst f hf]
        rfl
      · rw [Bindings.find?_insert, if_neg (by rintro rfl; exact hy hx), hyfree]
    | reopened _ hold => exact absurd (hfree.symm.trans hold) nofun
    | again _ hold => exact absurd (hfree.symm.trans hold) nofun
  | clash hdiffer _ hvar =>
    refine .inr ⟨fun f hf hc => ?_, run_of_fail hne hstep⟩
    rw [hsubst f hf] at hc
    obtain rfl : v = .symbol c := by
      cases v with
      | var x => cases hvar
      | expr l =>
        rw [Atom.bind_expr] at hc
        cases hc
      | _ => exact hc
    rw [Atom.beq_self] at hdiffer
    cases hdiffer

/-- A free variable that does not occur in an atom is bound to what the atom stands for. -/
theorem run_free (hb : b.Nominal) {x : String} {a : Atom ν} (hx : b.find? x = none) (hocc : x ∉ a.vars) :
    run ⟨(.var x, a) :: rest, b, o⟩ = run ⟨rest, b.insert x (b.subst a), o⟩ := by
  have hidem := hb.acyclic.unnested.subst_subst
  have hocc' : x ∉ (b.subst a).vars := fun h => hocc (hb.mem_vars_subst h).1
  have hsame : step ⟨(.var x, a) :: rest, b, o⟩ = step ⟨(.var x, b.subst a) :: rest, b, o⟩ := by
    simp only [step, hidem]
  exact run_cons (hsame.trans (step_of_free hx (hidem a) hocc'))

end Unifier

namespace Evaluator

open Unifier

/-! ## The query for a type -/

theorem arrowArity?_eq_some {m : Match ν} {k : Nat} : arrowArity? m = some k ↔
    ∃ parts, m.bindings.resolve? "__type" = some (.expr (.symbol "->" :: parts)) ∧ k = parts.length - 1 := by
  unfold arrowArity?
  split
  · rename_i parts hparts
    rw [hparts]
    simp [eq_comm]
  · rename_i hother
    exact iff_of_false nofun fun ⟨parts, hparts, _⟩ => hother parts hparts

variable [Scalar ν] {name : String} {a : Atom ν} {k n : Nat}

/-- No expression ends like the pattern. -/
theorem typePattern_beq_eq_false (name : String) (mark subject : Atom ν) (l : List (Atom ν)) :
    (typePattern name == .expr [mark, subject, .expr l]) = false := by
  rw [Bool.eq_false_iff, ne_eq, Atom.beq_iff]
  rintro ⟨-, hkey⟩
  have hlast := congrArg (fun s => s.toList.reverse) hkey
  simp [typePattern, Atom.key_toList_expr, Atom.key_toList_var, List.intercalate_cons_cons] at hlast

/-- What the pattern for the type of a name makes of three parts. -/
theorem unify_typePattern {mark subject type : Atom ν}
    (hdiffer : (typePattern name == .expr [mark, subject, type]) = false)
    (hfree : "__type" ∉ mark.vars ∧ "__type" ∉ subject.vars ∧ "__type" ∉ type.vars) :
    (∃ b : Bindings ν, b.Nominal ∧ b.find? "__type" = none ∧
      (∀ f, b.Holds f ↔ mark.bind f = .symbol ":" ∧ subject.bind f = .symbol name) ∧
      unify (typePattern name) (.expr [mark, subject, type]) ∅ = some (b.insert "__type" (b.subst type))) ∨
    (∀ f : String → Atom ν, mark.bind f = .symbol ":" → subject.bind f ≠ .symbol name) ∧
      unify (typePattern name) (.expr [mark, subject, type]) ∅ = none := by
  have hstart : unify (typePattern name) (.expr [mark, subject, type]) ∅ =
      run ⟨[(.symbol ":", mark), (.symbol name, subject), (.var "__type", type)], ∅, []⟩ :=
    unify_expr hdiffer rfl
  rcases run_symbol [] [(.symbol name, subject), (.var "__type", type)] Bindings.nominal_empty ":" mark
    with ⟨b, hb, hholds, hkept, hrun⟩ | ⟨hnone, hrun⟩
  · rcases run_symbol [] [(.var "__type", type)] hb name subject
      with ⟨c, hc, hholds', hkept', hrun'⟩ | ⟨hnone, hrun'⟩
    · have hcfree := hkept' "__type" hfree.2.1 (hkept "__type" hfree.1 rfl)
      refine .inl ⟨c, hc, hcfree, fun f => ?_, ?_⟩
      · rw [hholds', hholds]
        exact and_congr_left' (and_iff_right (Bindings.holds_empty f))
      · rw [hstart, hrun, hrun', run_free hc hcfree hfree.2.2]
        exact run_of_done rfl
    · refine .inr ⟨fun f hmark => hnone f ((hholds f).2 ⟨Bindings.holds_empty f, hmark⟩), ?_⟩
      rw [hstart, hrun, hrun']
  · refine .inr ⟨fun f hmark => absurd hmark (hnone f (Bindings.holds_empty f)), ?_⟩
    rw [hstart, hrun]

omit [Scalar ν] in
theorem exists_three_of_fits {p q r : Atom ν} (h : Space.fits (.expr [p, q, r]) a = true) :
    ∃ mark subject type, a = .expr [mark, subject, type] := by
  cases a with
  | expr l =>
    obtain ⟨mark, subject, type, rfl⟩ := List.length_eq_three.1 (beq_iff_eq.1 h)
    exact ⟨mark, subject, type, rfl⟩
  | _ => cases h

omit [Scalar ν] in
/-- Bindings that say all about the first two parts make the third part an arrow type if all instances do. -/
theorem subst_rename_eq_arrow {b : Bindings ν} (hb : b.Nominal) {mark subject : Atom ν}
    (hholds : ∀ f, b.Holds f ↔ (mark.rename n).bind f = .symbol ":" ∧ (subject.rename n).bind f = .symbol name)
    (type : Atom ν) : (∃ parts, b.subst (type.rename n) = .expr (.symbol "->" :: parts) ∧ k = parts.length - 1) ↔
      (Atom.expr [mark, subject, type]).Declares name k := by
  have harrow (arrow : Atom ν) : b.subst (arrow.rename n) = .symbol "->" ↔ ∀ f : String → Atom ν,
      mark.bind f = .symbol ":" → subject.bind f = .symbol name → arrow.bind f = .symbol "->" := by
    rw [hb.subst_eq_symbol_iff]
    constructor
    · intro h f hmark hsubject
      obtain ⟨g, hg⟩ := Atom.exists_bind_rename n f
      rw [← hg]
      exact h g ((hholds g).2 ⟨(hg mark).trans hmark, (hg subject).trans hsubject⟩)
    · intro h f hf
      obtain ⟨hmark, hsubject⟩ := (hholds f).1 hf
      rw [Atom.bind_rename] at hmark hsubject ⊢
      exact h _ hmark hsubject
  constructor
  · rintro ⟨parts, hvalue, rfl⟩
    obtain ⟨l, hl, hparts⟩ := hb.subst_expr_iff.1 hvalue
    cases type with
    | expr children =>
      rw [Atom.rename_expr, Atom.expr.injEq] at hl
      subst hl
      cases children with
      | nil => cases hparts
      | cons arrow rest =>
        rw [List.map_cons, List.map_cons, List.cons.injEq] at hparts
        refine ⟨mark, subject, arrow, rest, rfl, ?_, ?_, (harrow arrow).1 hparts.1⟩
        · rw [← hparts.2, List.length_map, List.length_map]
        · obtain ⟨hmark, hsubject⟩ := (hholds _).1 hb.acyclic.holds_subst
          rw [Atom.bind_rename] at hmark hsubject
          exact ⟨_, hmark, hsubject⟩
    | _ => cases hl
  · rintro ⟨_, _, arrow, parts, e, rfl, -, hall⟩
    cases e
    refine ⟨(parts.map (Atom.rename n)).map b.subst, ?_, by rw [List.length_map, List.length_map]⟩
    rw [Atom.rename_expr, Bindings.subst_expr, List.map_cons, List.map_cons, (harrow arrow).2 hall]

/-- The matches that an arrow type is read off are those of the declarations. -/
theorem arrowArity?_eq_some_iff {m : Match ν} (hfits : Space.fits (typePattern name) m.atom = true)
    (hunify : unify (typePattern name) (m.atom.rename n) ∅ = some m.bindings) :
    arrowArity? m = some k ↔ m.atom.Declares name k := by
  obtain ⟨mark, subject, type, hatom⟩ := exists_three_of_fits hfits
  rw [hatom, Atom.rename_expr] at hunify
  rw [hatom, arrowArity?_eq_some]
  by_cases hsame : (typePattern name == .expr [mark.rename n, subject.rename n, type.rename n]) = true
  · -- the pattern counts as equal to something else than a declaration, and nothing is bound
    have hbindings : m.bindings = ∅ := Option.some.inj (hunify.symm.trans (unify_of_beq hsame))
    refine iff_of_false (by rw [hbindings]; exact nofun) ?_
    rintro ⟨_, _, arrow, parts, e, -⟩
    cases e
    rw [Atom.rename_expr, typePattern_beq_eq_false] at hsame
    cases hsame
  · have hfree (c : Atom ν) := Atom.internal_not_mem_vars_rename (x := "__type") (by decide) c n
    rcases unify_typePattern (Bool.eq_false_iff.2 hsame) ⟨hfree mark, hfree subject, hfree type⟩
      with ⟨b, hb, -, hholds, hrun⟩ | ⟨-, hrun⟩
    · have hbindings : m.bindings = b.insert "__type" (b.subst (type.rename n)) :=
        Option.some.inj (hunify.symm.trans hrun)
      rw [hbindings, hb.resolve?_insert (hfree type), ← subst_rename_eq_arrow hb hholds]
      simp only [Option.some.injEq]
    · exact absurd (hunify.symm.trans hrun) nofun

/-- A declaration is found, whatever its variables are renamed to. -/
theorem exists_unify_typePattern (h : a.Declares name k) (n : Nat) :
    ∃ b, unify (typePattern name) (a.rename n) ∅ = some b := by
  obtain ⟨mark, subject, arrow, parts, rfl, -, ⟨f, hmark, hsubject⟩, -⟩ := h
  have hfree (c : Atom ν) := Atom.internal_not_mem_vars_rename (x := "__type") (by decide) c n
  have hrename : (Atom.expr [mark, subject, .expr (arrow :: parts)]).rename n =
      .expr [mark.rename n, subject.rename n, .expr ((arrow :: parts).map (Atom.rename n))] := by
    rw [← Atom.rename_expr, Atom.rename_expr]
    rfl
  rw [hrename]
  rcases unify_typePattern (typePattern_beq_eq_false name (mark.rename n) (subject.rename n) _)
    ⟨hfree mark, hfree subject, Atom.rename_expr _ n ▸ hfree (.expr (arrow :: parts))⟩
    with ⟨b, -, -, -, hrun⟩ | ⟨hnone, -⟩
  · exact ⟨_, hrun⟩
  · obtain ⟨g, hg⟩ := Atom.exists_bind_rename n f
    exact absurd ((hg subject).trans hsubject) (hnone g ((hg mark).trans hmark))

end Evaluator

end Atomspace
