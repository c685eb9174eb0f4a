import Atomspace.Proofs.Values
import Atomspace.Proofs.Retrieval
/-!
# Rules of orderly spaces

What the queries of evaluation find in an orderly space, whatever was read before and as far as no
limit cuts them short: exactly its rules (`groundResult?_iff`, `generalResult?_iff`) and its declared
numbers of arguments (`all_arity_iff`).
-/

namespace Atomspace

variable {ν : Type} [Scalar ν]

namespace Space

variable {D : Set (Atom ν)} {s t u : Space ν}

/-! ## Queries that no limit cuts short -/

theorem Clear.examine_isSome {p : Atom ν} (h : Clear D s p) (key : String) :
    (s.examine p key).1.isSome ↔ ∃ a, s.Answers p key a := by
  simp only [← h.examine_iff key]
  cases (s.examine p key).1 <;> simp

/-- How many matches there are does not depend on what was read before. -/
theorem Clear.length_examineAll {p : Atom ν} (h : Clear D s p) (keys : List String) (ht : Read s t)
    (hu : Read s u) : (t.examineAll p keys).1.length = (u.examineAll p keys).1.length := by
  induction keys generalizing t u with
  | nil => rfl
  | cons key keys ih =>
    have hsome : (t.examine p key).1.isSome = (u.examine p key).1.isSome := by
      rw [Bool.eq_iff_iff, (h.read ht).examine_isSome, (h.read hu).examine_isSome]
      simp only [ht.answers_iff, hu.answers_iff]
    have hlength : (t.examine p key).1.toList.length = (u.examine p key).1.toList.length := by
      revert hsome
      cases (t.examine p key).1 <;> cases (u.examine p key).1 <;> simp
    have hrest := ih (ht.trans (t.read_examine p key)) (hu.trans (u.read_examine p key))
    rw [examineAll_cons, examineAll_cons, List.length_append, List.length_append, hlength, hrest]

theorem Read.candidates (h : Read s t) (c : String) (l : List (Atom ν)) :
    t.candidates (.expr (.symbol c :: l)) = s.candidates (.expr (.symbol c :: l)) := by
  show t.bucket c ++ t.bucket openHead = s.bucket c ++ s.bucket openHead
  simp only [bucket, h.index]

theorem Uncut.read {c : String} {l : List (Atom ν)} (h : s.Uncut (.expr (.symbol c :: l)))
    (hclear : Clear D s (.expr (.symbol c :: l))) (ht : Read s t) : t.Uncut (.expr (.symbol c :: l)) := by
  rw [Uncut, ht.candidates, ht.config, hclear.length_examineAll _ ht (.refl s)]
  exact h

theorem Read.trusts_iff (h : Read s t) (a : Atom ν) : t.Trusts a ↔ s.Trusts a := by
  rw [Trusts, h.config]
  simp only [h.fact?]
  rfl

theorem Found.trusts {p : Atom ν} {m : Match ν} (h : Found s t p m) : s.Trusts m.atom := by
  obtain ⟨held, trusted, -, -, -⟩ := h
  exact ⟨_, _, held, trusted⟩

end Space

namespace Evaluator

open Space (Found Read Clear)

variable {D : Set (Atom ν)} {s t u : Space ν} {r : Registry ν}

/-! ## What a query finds -/

/-- The patterns of evaluation are clear. -/
theorem Orderly.clear (h : Orderly D s r) {p : Atom ν} (hp : p ∈ D)
    (hvars : ∀ x ∈ p.vars, x ∈ Atom.internalNames) : Clear D s p where
  faithful := h.ample.faithful
  renamed := h.ample.renamed
  pattern := hp
  stored := h.within
  apart _ _ _ x _ n _ hx := Atom.not_mem_internalNames_numbered x n (hvars _ hx)

/-- An uncut query finds all trusted triples with its head that unify with it. -/
theorem Orderly.exists_match (h : Orderly D s r) (ht : Read s t) {c : String} {p q l m : Atom ν}
    (hp : .expr [.symbol c, p, q] ∈ D)
    (hvars : ∀ x ∈ (Atom.expr [.symbol c, p, q]).vars, x ∈ Atom.internalNames)
    (hroom : s.Uncut (.expr [.symbol c, p, q])) (ha : s.Trusts (.expr [.symbol c, l, m]))
    (hu : (Atom.expr [.symbol c, p, q]).Unifiable (.expr [.symbol c, l, m])) :
    ∃ x ∈ (t.query (.expr [.symbol c, p, q])).1, x.atom = .expr [.symbol c, l, m] := by
  have hclear := h.clear hp hvars
  have huncut := hroom.read hclear ht
  obtain ⟨key, truth, hfact, htrust⟩ := (ht.trusts_iff _).2 ha
  exact ((hclear.read ht).query_iff (h.reachable.filed.change (.revalue ht.revalued)) huncut.1 huncut.2
    _).2 ⟨⟨key, truth, hfact, rfl, htrust, hu⟩, .inr (.inl rfl)⟩

/-- What a query for a triple finds are triples with the same head. -/
theorem Orderly.triple_of_found (h : Orderly D s r) (ht : Read s t) {c : String} {p q : Atom ν}
    {m : Match ν} (hp : .expr [.symbol c, p, q] ∈ D) (hm : Found t u (.expr [.symbol c, p, q]) m) :
    ∃ l w n, m.atom = .expr [.symbol c, l, w] ∧ s.Trusts (.expr [.symbol c, l, w]) ∧
      unify (.expr [.symbol c, p, q]) (.expr [.symbol c, l.rename n, w.rename n]) ∅ = some m.bindings := by
  have htrust := (ht.trusts_iff _).1 hm.trusts
  have hmD := h.trusts_mem htrust
  obtain ⟨a, b, score⟩ := m
  obtain ⟨x, rfl⟩ : ∃ x, a = .expr x := hm.exists_expr
  obtain ⟨-, -, -, -, unified⟩ := hm
  obtain ⟨hacyclic, -, hholds⟩ := unify_spec h.ample.faithful hp (h.ample.rename hmD _) unified
  obtain ⟨head, l, w, rfl, hhead, -, -, -⟩ := exists_three_of_bind ((hholds _).1 hacyclic.holds_subst)
  obtain rfl | hvar := hhead
  · exact ⟨l, w, _, rfl, htrust, by rwa [Atom.rename_expr] at unified⟩
  · cases head with
    | var x => exact absurd htrust (h.headed x l w)
    | _ => cases hvar

/-! ## Rules -/

/-- A match of `(= a $__result)` whose rule has no variables on the left is of a rule for the atom
itself. -/
theorem Orderly.groundResult?_eq (h : Orderly D s r) (ht : Read s t) {a v : Atom ν} {m : Match ν}
    (ha : a ∈ D) (hground : a.vars = []) (hm : Found t u (.expr [.symbol "=", a, .var "__result"]) m) :
    groundResult? m = some v ↔ m.atom = .expr [.symbol "=", a, v] := by
  have hp := h.ample.equation ha (h.ample.internal "__result" (by decide))
  obtain ⟨l, w, n, hatom, hrule, hunify⟩ := h.triple_of_found ht hp hm
  have hresult : groundResult? m = if l.hasVars then none else m.bindings.resolve? "__result" := by
    rw [groundResult?, hatom]
    rfl
  rw [hresult, hatom]
  split
  · rename_i hvars
    constructor
    · intro e
      cases e
    · intro e
      simp only [Atom.expr.injEq, List.cons.injEq, true_and] at e
      rw [e.1, Atom.hasVars_iff_ne_nil] at hvars
      exact absurd hground hvars
  · rename_i hvars
    rw [Bool.not_eq_true, Atom.hasVars_eq_false_iff] at hvars
    have hw := h.ground_of_rule hrule hvars
    have hc := h.trusts_mem hrule
    have hrename {b : Atom ν} (hb : b.vars = []) : b.rename n = b := Atom.bind_of_ground hb _
    rw [hrename hvars, hrename hw] at hunify
    obtain ⟨hacyclic, -, hholds⟩ := unify_spec h.ample.faithful hp hc hunify
    have hsides := (hholds _).1 hacyclic.holds_subst
    simp only [Atom.bind_expr, List.map_cons, List.map_nil, Atom.expr.injEq, List.cons.injEq, and_true,
      Atom.bind_of_ground hground, Atom.bind_of_ground hvars, Atom.bind_of_ground hw, Atom.bind_var]
      at hsides
    obtain ⟨-, rfl, hvalue⟩ := hsides
    rw [hacyclic.resolve?_of_subst hvalue (by rintro rfl; cases hw)]
    simp

/-- The rules that `(= a $__result)` finds without variables on the left are the rules for `a`. -/
theorem Orderly.groundResult?_iff (h : Orderly D s r) (ht : Read s t) {a v : Atom ν} (ha : a ∈ D)
    (hground : a.vars = []) (hroom : s.Uncut (.expr [.symbol "=", a, .var "__result"])) :
    (∃ m ∈ (t.query (.expr [.symbol "=", a, .var "__result"])).1, groundResult? m = some v) ↔
      s.Rule a v := by
  have hp := h.ample.equation ha (h.ample.internal "__result" (by decide))
  constructor
  · rintro ⟨m, hm, hv⟩
    have hfound := Space.found_query hm
    have htrust := hfound.trusts
    rwa [(h.groundResult?_eq ht ha hground hfound).1 hv, ht.trusts_iff] at htrust
  · intro hrule
    have hvars : ∀ x ∈ (Atom.expr [.symbol "=", a, .var "__result"]).vars, x ∈ Atom.internalNames := by
      intro x hx
      rw [Atom.mem_vars_equation, hground, Atom.vars_var, List.mem_singleton] at hx
      obtain hx | rfl := hx
      · cases hx
      · decide
    obtain ⟨m, hm, hatom⟩ := h.exists_match ht hp hvars hroom hrule
      ⟨fun _ => v, .var, by simp [Atom.bind_of_ground hground, Atom.bind_var_eq_self]⟩
    exact ⟨m, hm, (h.groundResult?_eq ht ha hground (Space.found_query hm)).2 hatom⟩

/-- Matching the left side of a rule with an atom without variables gives the right side under any
assignment that makes the left side that atom. -/
theorem Orderly.unify_copy_iff (h : Orderly D s r) {a l w v : Atom ν} {n : Nat} (hrule : s.Rule l w)
    (ha : a ∈ D) (hground : a.vars = []) :
    (∃ b, unify (l.rename n) a ∅ = some b ∧ b.subst (w.rename n) = v) ↔
      ∃ f : String → Atom ν, l.bind f = a ∧ w.bind f = v := by
  have hl := h.ample.faithful.part (h.trusts_mem hrule) (a := l) (by simp)
  have hlD := h.ample.rename hl n
  -- what the bindings give, as an assignment of the variables of the rule
  have hassign {b : Bindings ν} (hb : unify (l.rename n) a ∅ = some b) :
      l.bind (fun x => b.subst (.var (Atom.numbered x n))) = a ∧
        b.subst (w.rename n) = w.bind fun x => b.subst (.var (Atom.numbered x n)) := by
    obtain ⟨hacyclic, -, hholds⟩ := unify_spec h.ample.faithful hlD ha hb
    have heq := (hholds _).1 hacyclic.holds_subst
    rw [Atom.bind_rename, Atom.bind_of_ground hground] at heq
    exact ⟨heq, Atom.bind_rename w n _⟩
  constructor
  · rintro ⟨b, hb, rfl⟩
    obtain ⟨hleft, hright⟩ := hassign hb
    exact ⟨_, hleft, hright.symm⟩
  · rintro ⟨f, hleft, rfl⟩
    have hunifier : ∃ f : String → Atom ν, (l.rename n).bind f = a.bind f := by
      obtain ⟨f, hf⟩ := (Atom.unifiable_iff_rename (p := a) (n := n) (by simp [hground])).1
        ⟨.var, f, a.bind_var_eq_self.trans hleft.symm⟩
      exact ⟨f, hf.symm⟩
    obtain ⟨b, hb⟩ : ∃ b, unify (l.rename n) a ∅ = some b := by
      rw [← Option.ne_none_iff_exists', ne_eq, unify_eq_none_iff h.ample.faithful hlD ha
        Bindings.acyclic_empty (Bindings.within_empty D), not_not]
      exact hunifier.imp fun f hf => ⟨hf, Bindings.holds_empty f⟩
    obtain ⟨hleft', hright⟩ := hassign hb
    refine ⟨b, hb, hright.trans (w.bind_congr fun x hx => ?_)⟩
    exact Atom.eq_of_bind_eq (hleft'.trans hleft.symm) x (h.closed l w hrule x hx)

theorem Orderly.generalResult?_eq (h : Orderly D s r) (ht : Read s t) {a v : Atom ν} {m : Match ν}
    (ha : a ∈ D) (hground : a.vars = [])
    (hm : Found t u (.expr [.symbol "=", .var "__pattern", .var "__template"]) m) :
    generalResult? a m = some v ↔ ∃ l w, m.atom = .expr [.symbol "=", l, w] ∧ l.vars ≠ [] ∧
      ∃ f : String → Atom ν, l.bind f = a ∧ w.bind f = v := by
  have hp : "__pattern" ∈ Atom.internalNames := by decide
  have hq : "__template" ∈ Atom.internalNames := by decide
  have hpD := h.ample.equation (h.ample.internal _ hp) (h.ample.internal _ hq)
  obtain ⟨l, w, n, hatom, hrule, hunify⟩ := h.triple_of_found ht hpD hm
  have hc := h.ample.rename (h.trusts_mem hrule) n
  rw [Atom.rename_expr] at hc
  have hfresh {x : String} (hx : x ∈ Atom.internalNames) : x ∉ (l.rename n).vars ∧ x ∉ (w.rename n).vars :=
    ⟨Atom.internal_not_mem_vars_rename hx l n, Atom.internal_not_mem_vars_rename hx w n⟩
  rw [unify_sides h.ample.faithful hpD hc (by decide) (hfresh hp) (hfresh hq), Option.some.injEq] at hunify
  obtain ⟨hpattern, htemplate⟩ := resolve?_sides (by decide) (hfresh hp) (hfresh hq)
  have hresult : generalResult? a m = if (l.rename n).hasVars then
      (unify (l.rename n) a ∅).map fun b => b.subst (w.rename n) else none := by
    simp only [generalResult?, ← hunify, hpattern, htemplate, Option.bind_eq_bind, Option.bind_some]
    split
    · exact Option.map_eq_bind.symm
    · rfl
  have hvars : (l.rename n).hasVars = true ↔ l.vars ≠ [] := by
    rw [Atom.hasVars_iff_ne_nil, ne_eq, ne_eq, Atom.vars_rename_eq_nil]
  rw [hresult, hatom, ite_eq_iff]
  simp only [hvars, Option.map_eq_some_iff, h.unify_copy_iff hrule ha hground, reduceCtorEq, and_false,
    or_false]
  constructor
  · rintro ⟨hl, f, hf⟩
    exact ⟨l, w, rfl, hl, f, hf⟩
  · rintro ⟨l', w', e, hl, f, hf⟩
    simp only [Atom.expr.injEq, List.cons.injEq, true_and, and_true] at e
    obtain ⟨rfl, rfl⟩ := e
    exact ⟨hl, f, hf⟩

/-- The rules with variables on the left that `(= $__pattern $__template)` finds are those whose left
side can become `a`. -/
theorem Orderly.generalResult?_iff (h : Orderly D s r) (ht : Read s t) {a v : Atom ν} (ha : a ∈ D)
    (hground : a.vars = [])
    (hroom : s.Uncut (.expr [.symbol "=", .var "__pattern", .var "__template"])) :
    (∃ m ∈ (t.query (.expr [.symbol "=", .var "__pattern", .var "__template"])).1,
      generalResult? a m = some v) ↔
      ∃ l w, s.Rule l w ∧ l.vars ≠ [] ∧ ∃ f : String → Atom ν, l.bind f = a ∧ w.bind f = v := by
  constructor
  · rintro ⟨m, hm, hv⟩
    have hfound := Space.found_query hm
    obtain ⟨l, w, hatom, hl, hf⟩ := (h.generalResult?_eq ht ha hground hfound).1 hv
    have htrust := hfound.trusts
    rw [hatom, ht.trusts_iff] at htrust
    exact ⟨l, w, htrust, hl, hf⟩
  · rintro ⟨l, w, hrule, hl, hf⟩
    have hp := h.ample.equation (h.ample.internal "__pattern" (by decide))
      (h.ample.internal "__template" (by decide))
    have hvars : ∀ x ∈ (Atom.expr [.symbol "=", .var "__pattern", .var "__template"] : Atom ν).vars,
        x ∈ Atom.internalNames := by
      intro x hx
      rw [Atom.mem_vars_equation, Atom.vars_var, Atom.vars_var, List.mem_singleton, List.mem_singleton] at hx
      obtain rfl | rfl := hx <;> decide
    obtain ⟨m, hm, hatom⟩ := h.exists_match ht hp hvars hroom hrule
      ⟨fun x => if x = "__pattern" then l else w, .var, by simp [Atom.bind_var_eq_self]⟩
    exact ⟨m, hm, (h.generalResult?_eq ht ha hground (Space.found_query hm)).2 ⟨l, w, hatom, hl, hf⟩⟩

/-! ## Declarations -/

/-- The pattern for the declared type of a name. -/
theorem Orderly.declaration_mem (h : Orderly D s r) {name : String} (hname : .symbol name ∈ D) :
    Atom.expr [.symbol ":", .symbol name, .var "__type"] ∈ D :=
  h.ample.expr (by simp [h.colon, hname, h.ample.internal "__type" (by decide)])

omit [Scalar ν] in
/-- What `$__type` stands for is an arrow type only if that is declared: it is not, if a variable would
have to become an arrow type first. -/
theorem head_of_arrow {n ty : Atom ν} {i : Nat} {name : String} {parts : List (Atom ν)} {b : Bindings ν}
    (hholds : ∀ f, b.Holds f ↔ (Atom.expr [.symbol ":", .symbol name, .var "__type"]).bind f =
      (Atom.expr [.symbol ":", n.rename i, ty.rename i]).bind f)
    (hn : n = .symbol name ∨ n.isVar = true)
    (harrow : b.subst (ty.rename i) = .expr (.symbol "->" :: parts)) :
    ∃ head rest, ty = .expr (head :: rest) ∧ (head = .symbol "->" ∨ head = n ∧ name = "->") ∧
      rest.length = parts.length := by
  classical
  -- a unifier that gives no variable an arrow type, nor the name of one except to `n`
  let g (z : String) : Atom ν := if n.rename i = .var z then .symbol name else .symbol ""
  let f (z : String) : Atom ν := if z = "__type" then (ty.rename i).bind g else g z
  have hf (a : Atom ν) : (a.rename i).bind f = (a.rename i).bind g := by
    refine Atom.bind_congr _ fun z hz => if_neg ?_
    rintro rfl
    obtain ⟨x, -, e⟩ := Atom.mem_vars_rename hz
    exact internal_ne_numbered (by decide) x i e
  have hng : (n.rename i).bind g = .symbol name := by
    obtain rfl | hvar := hn
    · rfl
    · cases n with
      | var y => exact if_pos rfl
      | _ => cases hvar
  have hall : b.Holds f := by
    rw [hholds]
    simp [hf, hng, f]
  have hinst (a : Atom ν) : (b.subst (a.rename i)).bind f = (a.rename i).bind g :=
    (hall.bind_subst _).trans (hf a)
  have hty := hinst ty
  rw [harrow] at hty
  cases ty with
  | var y =>
    rw [Atom.rename_var, Atom.bind_var, Atom.bind_expr] at hty
    simp only [g] at hty
    split at hty <;> cases hty
  | expr l =>
    rw [Atom.rename_expr, Bindings.subst_expr, Atom.expr.injEq] at harrow
    cases l with
    | nil => cases harrow
    | cons head rest =>
      rw [List.map_cons, List.map_cons, List.cons.injEq] at harrow
      obtain ⟨hhead, hrest⟩ := harrow
      refine ⟨head, rest, rfl, ?_, by rw [← hrest, List.length_map, List.length_map]⟩
      have hg := hinst head
      rw [hhead, Atom.bind_symbol] at hg
      obtain rfl | hvar := Atom.eq_symbol_or_isVar hg.symm
      · exact .inl rfl
      · cases head with
        | var y =>
          simp only [Atom.rename_var, Atom.bind_var, g] at hg
          split at hg
          · rename_i hn
            refine .inr ⟨?_, (Atom.symbol.inj hg).symm⟩
            cases n with
            | var z => rw [(Atom.numbered_eq_iff.1 (Atom.var.inj hn)).1]
            | expr l =>
              rw [Atom.rename_expr] at hn
              cases hn
            | _ => cases hn
          · exact absurd (Atom.symbol.inj hg) (by decide)
        | _ => cases hvar
  | _ => cases harrow

/-- The matches of the pattern for the declared type of a name that tell a number of arguments are
the declarations of that number. -/
theorem Orderly.arrowArity?_eq (h : Orderly D s r) (ht : Read s t) {name : String} {k : Nat} {m : Match ν}
    (hname : .symbol name ∈ D) (hm : Found t u (.expr [.symbol ":", .symbol name, .var "__type"]) m) :
    arrowArity? m = some k ↔ ∃ n head parts, m.atom = .expr [.symbol ":", n, .expr (head :: parts)] ∧
      (n = .symbol name ∨ n.isVar = true) ∧ (head = .symbol "->" ∨ head = n ∧ name = "->") ∧
      k = parts.length - 1 := by
  have hp := h.declaration_mem hname
  obtain ⟨n, ty, i, hatom, htrust, hunify⟩ := h.triple_of_found ht hp hm
  have hc := h.ample.rename (h.trusts_mem htrust) i
  rw [Atom.rename_expr] at hc
  obtain ⟨hacyclic, -, hholds⟩ := unify_spec h.ample.faithful hp hc hunify
  have hsides := (hholds _).1 hacyclic.holds_subst
  simp only [Atom.bind_expr, List.map_cons, List.map_nil, Atom.expr.injEq, List.cons.injEq, and_true,
    Atom.bind_symbol, Atom.bind_var] at hsides
  obtain ⟨-, hn, hty⟩ := hsides
  rw [hatom, arrowArity?]
  constructor
  · intro hk
    split at hk
    · rename_i parts harrow
      obtain ⟨head, rest, rfl, hhead, hlength⟩ := head_of_arrow hholds (Atom.eq_symbol_or_isVar hn.symm)
        (hty.symm.trans (hacyclic.subst_of_resolve? harrow).1)
      refine ⟨n, head, rest, rfl, Atom.eq_symbol_or_isVar hn.symm, hhead, ?_⟩
      rw [← Option.some.inj hk, hlength]
    · cases hk
  · rintro ⟨n', head, parts, e, -, hhead, rfl⟩
    simp only [Atom.expr.injEq, List.cons.injEq, true_and, and_true] at e
    obtain ⟨rfl, rfl⟩ := e
    have harrow : m.bindings.subst (head.rename i) = .symbol "->" := by
      obtain rfl | ⟨rfl, rfl⟩ := hhead
      · rfl
      · exact hn.symm
    have hvalue : m.bindings.subst (.var "__type") =
        .expr (.symbol "->" :: (parts.map (Atom.rename i)).map m.bindings.subst) := by
      refine hty.trans ((congrArg m.bindings.subst (Atom.rename_expr _ i)).trans ?_)
      rw [Bindings.subst_expr, List.map_cons, List.map_cons, harrow]
    rw [hacyclic.resolve?_of_subst hvalue (by simp)]
    simp

theorem Orderly.arrowArity?_iff (h : Orderly D s r) (ht : Read s t) {name : String} {k : Nat}
    (hname : .symbol name ∈ D) (hroom : s.Uncut (.expr [.symbol ":", .symbol name, .var "__type"])) :
    (∃ m ∈ (t.query (.expr [.symbol ":", .symbol name, .var "__type"])).1, arrowArity? m = some k) ↔
      s.Declares name k := by
  constructor
  · rintro ⟨m, hm, hk⟩
    have hfound := Space.found_query hm
    obtain ⟨n, head, parts, hatom, hn, hhead, rfl⟩ := (h.arrowArity?_eq ht hname hfound).1 hk
    have htrust := hfound.trusts
    rw [hatom, ht.trusts_iff] at htrust
    exact ⟨n, head, parts, htrust, hn, hhead, rfl⟩
  · rintro ⟨n, head, parts, htrust, hn, hhead, rfl⟩
    have hvars : ∀ x ∈ (Atom.expr [.symbol ":", .symbol name, .var "__type"] : Atom ν).vars,
        x ∈ Atom.internalNames := by
      intro x hx
      obtain rfl : x = "__type" := List.mem_singleton.1 hx
      decide
    have hnamed : n.bind (fun _ => .symbol name) = .symbol name := by
      obtain rfl | hvar := hn
      · rfl
      · cases n with
        | var y => rfl
        | _ => cases hvar
    obtain ⟨m, hm, hatom⟩ := h.exists_match ht (h.declaration_mem hname) hvars hroom htrust
      ⟨fun _ => (Atom.expr (head :: parts)).bind fun _ => .symbol name, fun _ => .symbol name,
        by simp [hnamed]⟩
    refine ⟨m, hm, (h.arrowArity?_eq ht hname (Space.found_query hm)).2 ?_⟩
    exact ⟨n, head, parts, hatom, hn, hhead, rfl⟩

/-- The first declaration that a query finds decides, since all of them agree. -/
theorem Orderly.all_arity_iff (h : Orderly D s r) (ht : Read s t) {name : String} {count : Nat}
    (hname : .symbol name ∈ D) (hroom : s.Uncut (.expr [.symbol ":", .symbol name, .var "__type"])) :
    (((t.query (.expr [.symbol ":", .symbol name, .var "__type"])).1.findSome? arrowArity?).all
      (· == count)) = true ↔ ∀ k, s.Declares name k → count = k := by
  simp only [← h.arrowArity?_iff ht hname hroom]
  cases hfirst : (t.query (.expr [.symbol ":", .symbol name, .var "__type"])).1.findSome? arrowArity? with
  | none =>
    refine iff_of_true rfl ?_
    rintro k ⟨m, hm, hk⟩
    rw [List.findSome?_eq_none_iff.1 hfirst m hm] at hk
    cases hk
  | some j =>
    obtain ⟨m, hm, hj⟩ := List.exists_of_findSome?_eq_some hfirst
    have hdeclared := (h.arrowArity?_iff ht hname hroom).1 ⟨m, hm, hj⟩
    rw [Option.all_some, beq_iff_eq]
    constructor
    · rintro rfl k hk
      exact h.declared name j k hdeclared ((h.arrowArity?_iff ht hname hroom).1 hk)
    · intro hall
      exact (hall j ⟨m, hm, hj⟩).symm

/-! ## Both passes -/

/-- Every rule whose left side can become `a` is found in one of the two passes. -/
theorem Orderly.exists_match_of_rule (h : Orderly D s r) (ht : Read s t) (hu : Read s u) {a l q : Atom ν}
    {f : String → Atom ν} (ha : a ∈ D) (hground : a.vars = [])
    (hresult : s.Uncut (.expr [.symbol "=", a, .var "__result"]))
    (htemplate : s.Uncut (.expr [.symbol "=", .var "__pattern", .var "__template"]))
    (hlq : s.Rule l q) (hl : l.bind f = a) :
    (∃ m ∈ (t.query (.expr [.symbol "=", a, .var "__result"])).1, groundResult? m = some (q.bind f)) ∨
      ∃ m ∈ (u.query (.expr [.symbol "=", .var "__pattern", .var "__template"])).1,
        generalResult? a m = some (q.bind f) := by
  by_cases hvars : l.vars = []
  · have hq := h.ground_of_rule hlq hvars
    rw [Atom.bind_of_ground hvars] at hl
    rw [Atom.bind_of_ground hq]
    exact .inl ((h.groundResult?_iff ht ha hground hresult).2 (hl ▸ hlq))
  · exact .inr ((h.generalResult?_iff hu ha hground htemplate).2 ⟨l, q, hlq, hvars, f, hl, rfl⟩)

/-- A rule is not found in both passes. -/
theorem Orderly.key_ne_of_results (h : Orderly D s r) (ht : Read s t) (hu : Read s u) {a v w : Atom ν}
    {t' u' : Space ν} (ha : a ∈ groundPart D) {m m' : Match ν}
    (hm : Found t t' (.expr [.symbol "=", a, .var "__result"]) m) (hv : groundResult? m = some v)
    (hm' : Found u u' (.expr [.symbol "=", .var "__pattern", .var "__template"]) m')
    (hw : generalResult? a m' = some w) : m.atom.key ≠ m'.atom.key := by
  intro hkey
  have hmem := h.trusts_mem ((ht.trusts_iff _).1 hm.trusts)
  have hmem' := h.trusts_mem ((hu.trusts_iff _).1 hm'.trusts)
  obtain ⟨l, q, hatom, hl, -⟩ := (h.generalResult?_eq hu ha.1 ha.2 hm').1 hw
  have hsame := h.ample.eq_of_key hmem hmem' hkey
  rw [(h.groundResult?_eq ht ha.1 ha.2 hm).1 hv, hatom] at hsame
  simp only [Atom.expr.injEq, List.cons.injEq, true_and] at hsame
  exact hl (hsame.1 ▸ ha.2)

end Evaluator

end Atomspace
