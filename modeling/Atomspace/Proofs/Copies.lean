import Atomspace.Proofs.MostGeneral
/-!
# Copies of rules

A rule is applied in a copy with variables of its own. A query finds the copy together with values
for the variables of its pattern; `Copied` says what such bindings are: the variables of the
pattern and the head of the rule are solved, and do not come up in what anything else stands for.
So what the bindings give for the sides of the rule comes from a most general unifier
(`Copied.mostGeneral`), or is the copy itself (`Copied.subst_rename`).
-/

namespace Atomspace

variable {ν : Type}

namespace Atom

/-- An assignment that makes two atoms equal, and of which every other one is an instance. -/
structure MostGeneral (s : String → Atom ν) (l r : Atom ν) : Prop where
  unifies : l.bind s = r.bind s
  factors : ∀ f, l.bind f = r.bind f → ∀ x, f x = (s x).bind f

/-- What a variable becomes in the copy of number `n` of an expression with the head `h`: it is
renamed by the number, but a head that is a variable becomes `=`. -/
def copyVar (h : Atom ν) (n : Nat) (x : String) : Atom ν :=
  match h with
  | var y => if x = y then symbol "=" else var (numbered x n)
  | _ => var (numbered x n)

/-- A part of the copy of number `n` of an expression with the head `h`. -/
def copy (h : Atom ν) (n : Nat) : Atom ν → Atom ν :=
  bind (copyVar h n)

theorem rename_var (x : String) (n : Nat) : (var x : Atom ν).rename n = var (numbered x n) := rfl

theorem rename_expr (l : List (Atom ν)) (n : Nat) : (expr l).rename n = expr (l.map (rename n)) :=
  bind_expr _ l

/-- A head that is a variable becomes `=`, and every other variable is renamed. -/
theorem copyVar_cases (h : Atom ν) (n : Nat) (x : String) :
    (h.rename n = var (numbered x n) ∧ copyVar h n x = symbol "=") ∨
      (h.rename n ≠ var (numbered x n) ∧ copyVar h n x = var (numbered x n)) := by
  cases h with
  | var y =>
    rw [rename_var, copyVar]
    split
    · rename_i e
      exact .inl ⟨by rw [e], rfl⟩
    · rename_i hne
      refine .inr ⟨fun e => hne ?_, rfl⟩
      exact ((numbered_eq_iff.1 (var.inj e)).1).symm
  | expr l => exact .inr ⟨by simp [rename_expr], rfl⟩
  | _ => exact .inr ⟨by simp [rename, bind], rfl⟩

end Atom

namespace Bindings

open Atom (copy copyVar numbered MostGeneral)

/-- A variable whose value is settled when a pattern meets a copy: one of the pattern that has a
value, or the head of the copied expression. -/
def Solved (h : Atom ν) (n : Nat) (values : String → Option (Atom ν)) (z : String) : Prop :=
  values z ≠ none ∨ h.rename n = .var z

/-- An assignment of the variables of a copy, and with it of all that is solved. -/
def lift (h : Atom ν) (n : Nat) (values : String → Option (Atom ν)) (f : String → Atom ν) (z : String) :
    Atom ν :=
  match values z with
  | some a => a.bind f
  | none =>
    match h.rename n with
    | .var y => if z = y then .symbol "=" else f z
    | _ => f z

/-- Bindings that come of a pattern and an expression with the head `h`, renamed by `n`: the head
stands for `=`, and the variables of the pattern that have values are bound. -/
structure Copied (b : Bindings ν) (h : Atom ν) (n : Nat) (values : String → Option (Atom ν)) : Prop where
  acyclic : b.Acyclic
  head : b.subst (h.rename n) = .symbol "="
  bound : ∀ z a, values z = some a → b.find? z ≠ none
  apart : ∀ x, values (numbered x n) = none

section
variable {b : Bindings ν} {h : Atom ν} {n : Nat} {values : String → Option (Atom ν)}

theorem lift_of_not_solved {z : String} (hz : ¬ Solved h n values z) (f : String → Atom ν) :
    lift h n values f z = f z := by
  rw [Solved, not_or, not_not] at hz
  unfold lift
  rw [hz.1]
  simp only
  split
  · rename_i y hy
    rw [if_neg]
    rintro rfl
    exact hz.2 hy
  · rfl

theorem Copied.lift_numbered (hb : b.Copied h n values) (x : String) (f : String → Atom ν) :
    lift h n values f (numbered x n) = (copyVar h n x).bind f := by
  rcases Atom.copyVar_cases h n x with ⟨hhead, hcopy⟩ | ⟨hhead, hcopy⟩
  · rw [hcopy, lift, hb.apart, hhead]
    simp only [if_true]
    rfl
  · rw [hcopy]
    exact lift_of_not_solved (by simp [Solved, hb.apart, hhead]) f

theorem Copied.bind_lift (hb : b.Copied h n values) (a : Atom ν) (f : String → Atom ν) :
    (a.rename n).bind (lift h n values f) = (copy h n a).bind f := by
  rw [Atom.rename, copy, Atom.bind_bind, Atom.bind_bind]
  exact a.bind_congr fun x _ => hb.lift_numbered x f

/-- What is solved does not come up in what anything stands for. -/
theorem Copied.not_solved (hb : b.Copied h n values) {a : Atom ν} {z : String}
    (hz : z ∈ (b.subst a).vars) : ¬ Solved h n values z := by
  have hfree := hb.acyclic.free_of_mem_vars_subst hz
  rintro (hvalue | hhead)
  · obtain ⟨c, hc⟩ := Option.ne_none_iff_exists'.1 hvalue
    exact hb.bound z c hc hfree
  · have h := hb.head
    rw [hhead, subst_var_of_free hfree] at h
    cases h

theorem Copied.factors (hb : b.Copied h n values) {f : String → Atom ν}
    (hf : b.Holds (lift h n values f)) {z : String} (hz : ¬ Solved h n values z) :
    f z = (b.subst (.var z)).bind f := by
  calc f z = lift h n values f z := (lift_of_not_solved hz f).symm
    _ = (b.subst (.var z)).bind (lift h n values f) := (hf.bind_subst (.var z)).symm
    _ = (b.subst (.var z)).bind f :=
      Atom.bind_congr _ fun y hy => lift_of_not_solved (hb.not_solved hy) f

/-- When nothing but the pattern is solved, what the bindings give is the copy. -/
theorem Copied.subst_rename (hb : b.Copied h n values) (hf : b.Holds (lift h n values .var))
    (a : Atom ν) : b.subst (a.rename n) = copy h n a := by
  rw [Atom.rename, copy]
  refine (a.bind_bind _ _).trans (a.bind_congr fun x _ => ?_)
  show b.subst (.var (numbered x n)) = _
  rcases Atom.copyVar_cases h n x with ⟨hhead, hcopy⟩ | ⟨hhead, hcopy⟩
  · rw [hcopy, ← hhead, hb.head]
  · have hz : ¬ Solved h n values (numbered x n) := by simp [Solved, hb.apart, hhead]
    have hself := hb.factors hf hz
    rw [Atom.bind_var_eq_self] at hself
    rw [hcopy]
    exact hself.symm

/-- Bindings that make one side of the copy equal to an atom, and hold of every assignment that
does, are a most general unifier of the two. -/
theorem Copied.mostGeneral (hb : b.Copied h n values) {l u : Atom ν}
    (hu : ∀ z ∈ u.vars, ¬ Solved h n values z) (heq : b.subst (l.rename n) = b.subst u)
    (hall : ∀ f, (copy h n l).bind f = u.bind f → b.Holds (lift h n values f)) :
    ∃ s, MostGeneral s (copy h n l) u ∧ ∀ a, (copy h n a).bind s = b.subst (a.rename n) := by
  classical
  let s (z : String) : Atom ν := if Solved h n values z then .var z else b.subst (.var z)
  have hcopy (a : Atom ν) : (copy h n a).bind s = b.subst (a.rename n) := by
    rw [Atom.rename, copy]
    refine (a.bind_bind _ _).trans (Eq.trans (a.bind_congr fun x _ => ?_) (a.bind_bind _ _).symm)
    show _ = b.subst (.var (numbered x n))
    rcases Atom.copyVar_cases h n x with ⟨hhead, hcopy⟩ | ⟨hhead, hcopy⟩
    · rw [hcopy, ← hhead, hb.head]
      rfl
    · rw [hcopy]
      exact if_neg (by simp [Solved, hb.apart, hhead])
  have hself : u.bind s = b.subst u := u.bind_congr fun z hz => if_neg (hu z hz)
  refine ⟨s, ⟨by rw [hcopy, hself, heq], fun f hf z => ?_⟩, hcopy⟩
  show _ = Atom.bind f (if _ then _ else _)
  split
  · rfl
  · rename_i hz
    exact hb.factors (hall f hf) hz

end

end Bindings

/-! ## Matches of rules -/

/-- A head that stands for `=` in a copy: `=` itself or a variable. -/
def Atom.IsRuleHead (h : Atom ν) : Prop := h = .symbol "=" ∨ h.isVar = true

theorem Atom.IsRuleHead.copy_self {h : Atom ν} (hh : h.IsRuleHead) (n : Nat) : copy h n h = .symbol "=" := by
  rcases hh with rfl | hvar
  · rfl
  · cases h with
    | var x => simp [copy, copyVar]
    | _ => cases hvar

theorem Atom.eq_symbol_or_isVar {h : Atom ν} {n : Nat} {f : String → Atom ν} {c : String}
    (e : (h.rename n).bind f = .symbol c) : h = .symbol c ∨ h.isVar = true := by
  rw [Atom.rename, Atom.bind_bind] at e
  cases h with
  | var => exact .inr rfl
  | symbol => exact .inl e
  | expr l =>
    rw [Atom.bind_expr] at e
    cases e
  | _ => cases e

namespace Bindings

theorem Acyclic.subst_of_resolve? {b : Bindings ν} (hb : b.Acyclic) {x : String} {v : Atom ν}
    (h : b.resolve? x = some v) : b.subst (.var x) = v ∧ b.find? x ≠ none := by
  obtain ⟨a, ha, rfl⟩ := Option.map_eq_some_iff.1 h
  exact ⟨hb.subst_var_of_find ha, by rw [ha]; exact Option.some_ne_none a⟩

theorem Acyclic.resolve?_of_subst {b : Bindings ν} (hb : b.Acyclic) {x : String} {v : Atom ν}
    (h : b.subst (.var x) = v) (hne : v ≠ .var x) : b.resolve? x = some v := by
  cases ha : b.find? x with
  | none => exact absurd (h.symm.trans (subst_var_of_free ha)) hne
  | some a => rw [resolve?, ha, Option.map_some, ← hb.subst_var_of_find ha, h]

end Bindings

variable [Scalar ν] {D : Set (Atom ν)}

/-- What unification returns without seeds: acyclic bindings, whose solutions are the unifiers. -/
theorem unify_spec (hD : Atom.Faithful D) {l r : Atom ν} {b : Bindings ν} (hl : l ∈ D) (hr : r ∈ D)
    (h : unify l r ∅ = some b) : b.Acyclic ∧ b.Within D ∧ ∀ f, b.Holds f ↔ l.bind f = r.bind f := by
  have hclean := Unifier.clean_start hl hr Bindings.acyclic_empty (Bindings.within_empty D)
  have hhalts := Unifier.halts_of_unnested Bindings.acyclic_empty.unnested l r
  obtain ⟨hacyclic, hwithin, hholds⟩ := (Unifier.run_spec hD hclean hhalts).1 b h
  refine ⟨hacyclic, hwithin, fun f => (hholds f).trans (Unifier.solved_start.trans ?_)⟩
  exact and_iff_left (Bindings.holds_empty f)

theorem mostGeneral_of_unify (hD : Atom.Faithful D) {l r : Atom ν} {b : Bindings ν} (hl : l ∈ D)
    (hr : r ∈ D) (h : unify l r ∅ = some b) : Atom.MostGeneral (fun x => b.subst (.var x)) l r := by
  obtain ⟨hacyclic, -, hholds⟩ := unify_spec hD hl hr h
  refine ⟨(hholds _).1 hacyclic.holds_subst, fun f hf x => ?_⟩
  exact (((hholds f).2 hf).bind_subst (.var x)).symm

/-- What a variable stands for after a unification does not have the variable in it. -/
theorem mem_of_resolve? (hD : Atom.Faithful D) {l r v : Atom ν} {b : Bindings ν} {x : String}
    (hl : l ∈ D) (hr : r ∈ D) (h : unify l r ∅ = some b) (hv : b.resolve? x = some v) :
    v ∈ D ∧ x ∉ v.vars := by
  obtain ⟨hacyclic, hwithin, -⟩ := unify_spec hD hl hr h
  obtain ⟨a, ha, rfl⟩ := Option.map_eq_some_iff.1 hv
  refine ⟨hwithin.subst_mem hD (hwithin x a ha), fun hx => ?_⟩
  rw [hacyclic.free_of_mem_vars_subst hx] at ha
  cases ha

section
open Atom (copy numbered MostGeneral)

variable {m : List (Atom ν)} {n : Nat} {b : Bindings ν}

omit [Scalar ν] in
/-- An expression that becomes equal to one of three with a symbol for its head has three children, and
its head is the symbol or a variable. -/
theorem exists_three_of_bind {c : String} {p q : Atom ν} {f : String → Atom ν}
    (h : (Atom.expr [.symbol c, p, q]).bind f = ((Atom.expr m).rename n).bind f) :
    ∃ h l r, m = [h, l, r] ∧ (h = .symbol c ∨ h.isVar = true) ∧ (h.rename n).bind f = .symbol c ∧
      p.bind f = (l.rename n).bind f ∧ q.bind f = (r.rename n).bind f := by
  rw [Atom.rename_expr, Atom.bind_expr, Atom.bind_expr, Atom.expr.injEq] at h
  match m with
  | [] | [_] | [_, _] | _ :: _ :: _ :: _ :: _ => simp at h
  | [h', l, r] =>
    simp only [List.map_cons, List.map_nil, List.cons.injEq, and_true] at h
    obtain ⟨hhead, hleft, hright⟩ := h
    exact ⟨h', l, r, rfl, Atom.eq_symbol_or_isVar hhead.symm, hhead.symm, hleft, hright⟩

omit [Scalar ν] in
/-- A lifted assignment makes a pattern equal to the expression that is copied, if the values of the
pattern's sides are those of the copy. -/
theorem Bindings.Copied.bind_expr_eq {h l r p q : Atom ν} {values : String → Option (Atom ν)}
    (hb : b.Copied h n values) (hh : h.IsRuleHead) {f : String → Atom ν}
    (hp : p.bind (lift h n values f) = (copy h n l).bind f)
    (hq : q.bind (lift h n values f) = (copy h n r).bind f) :
    (Atom.expr [.symbol "=", p, q]).bind (lift h n values f) =
      ((Atom.expr [h, l, r]).rename n).bind (lift h n values f) := by
  rw [Atom.rename_expr, Atom.bind_expr, Atom.bind_expr]
  simp only [List.map_cons, List.map_nil, hb.bind_lift, hh.copy_self, hp, hq]
  rfl

/-- The pattern `(= u $res)` meets an expression of three: what `$res` stands for is the right side
of a copy, under a most general unifier of its left side and `u`. -/
theorem exists_copy_of_unify (hD : Atom.Faithful D) {u v : Atom ν} {res : String}
    (hp : .expr [.symbol "=", u, .var res] ∈ D) (hc : (Atom.expr m).rename n ∈ D)
    (hunify : unify (.expr [.symbol "=", u, .var res]) ((Atom.expr m).rename n) ∅ = some b)
    (hv : b.resolve? res = some v) (hres : ∀ x k, res ≠ numbered x k) (hself : res ∉ u.vars)
    (hfresh : ∀ x ∈ (Atom.expr m).vars, numbered x n ∉ u.vars) :
    ∃ h l r s, m = [h, l, r] ∧ h.IsRuleHead ∧ MostGeneral s (copy h n l) u ∧
      v = (copy h n r).bind s := by
  obtain ⟨hacyclic, -, hholds⟩ := unify_spec hD hp hc hunify
  obtain ⟨hvalue, hbound⟩ := hacyclic.subst_of_resolve? hv
  obtain ⟨h, l, r, rfl, hh, hhead, hleft, hright⟩ :=
    exists_three_of_bind ((hholds _).1 hacyclic.holds_subst)
  let values (z : String) : Option (Atom ν) := if z = res then some (copy h n r) else none
  have hb : b.Copied h n values := by
    refine ⟨hacyclic, hhead, fun z a hz => ?_, fun x => if_neg (hres x n).symm⟩
    obtain rfl : z = res := by
      by_contra hne
      simp [values, hne] at hz
    exact hbound
  have hu : ∀ z ∈ u.vars, ¬ Bindings.Solved h n values z := by
    rintro z hz (hsome | hvar)
    · refine hsome (if_neg ?_)
      rintro rfl
      exact hself hz
    · cases h with
      | var x =>
        cases hvar
        exact hfresh x (by simp) hz
      | _ => cases hvar
  obtain ⟨s, hs, hcopy⟩ := hb.mostGeneral hu hleft.symm fun f hf => (hholds _).2 (hb.bind_expr_eq hh
    (hf ▸ u.bind_congr fun z hz => Bindings.lift_of_not_solved (hu z hz) f)
    (by simp [Bindings.lift, values]))
  exact ⟨h, l, r, s, rfl, hh, hs, hvalue.symm.trans (hright.trans (hcopy r).symm)⟩

/-- The pattern `(= $p $q)` meets an expression of three: its variables stand for the sides of a
copy. -/
theorem eq_copy_of_unify (hD : Atom.Faithful D) {p q : String} {v w : Atom ν}
    (hpD : .expr [.symbol "=", .var p, .var q] ∈ D) (hc : (Atom.expr m).rename n ∈ D)
    (hunify : unify (.expr [.symbol "=", .var p, .var q]) ((Atom.expr m).rename n) ∅ = some b)
    (hv : b.resolve? p = some v) (hw : b.resolve? q = some w) (hp : ∀ x k, p ≠ numbered x k)
    (hq : ∀ x k, q ≠ numbered x k) (hne : q ≠ p) :
    ∃ h l r, m = [h, l, r] ∧ h.IsRuleHead ∧ v = copy h n l ∧ w = copy h n r := by
  obtain ⟨hacyclic, -, hholds⟩ := unify_spec hD hpD hc hunify
  obtain ⟨hvalue, hbound⟩ := hacyclic.subst_of_resolve? hv
  obtain ⟨hvalue', hbound'⟩ := hacyclic.subst_of_resolve? hw
  obtain ⟨h, l, r, rfl, hh, hhead, hleft, hright⟩ :=
    exists_three_of_bind ((hholds _).1 hacyclic.holds_subst)
  let values (z : String) : Option (Atom ν) :=
    if z = p then some (copy h n l) else if z = q then some (copy h n r) else none
  have hb : b.Copied h n values := by
    refine ⟨hacyclic, hhead, fun z a hz => ?_, fun x => ?_⟩
    · by_cases e : z = p
      · rwa [e]
      · obtain rfl : z = q := by
          by_contra hne
          simp [values, e, hne] at hz
        exact hbound'
    · simp [values, (hp x n).symm, (hq x n).symm]
  have hcopy := hb.subst_rename ((hholds _).2 (hb.bind_expr_eq (l := l) (r := r) hh
    (by simp [Bindings.lift, values]) (by simp [Bindings.lift, values, hne])))
  exact ⟨h, l, r, rfl, hh, hvalue.symm.trans (hleft.trans (hcopy l)),
    hvalue'.symm.trans (hright.trans (hcopy r))⟩

end

/-! ## The sides of a rule -/

namespace Unifier

variable {rest : List (Atom ν × Atom ν)} {b : Bindings ν} {o : List String}

theorem step_of_beq {l r : Atom ν} (h : (b.subst l == b.subst r) = true) :
    step ⟨(l, r) :: rest, b, o⟩ = some ⟨rest, b, o⟩ := by
  simp only [step, h, if_true]

theorem step_of_expr {l r : List (Atom ν)} (hl : b.subst (.expr l) = .expr l)
    (hr : b.subst (.expr r) = .expr r) (hne : (Atom.expr l == .expr r) = false)
    (hlength : l.length = r.length) :
    step ⟨(.expr l, .expr r) :: rest, b, o⟩ = some ⟨l.zip r ++ rest, b, o⟩ := by
  simp [step, hl, hr, hne, hlength]

theorem step_of_free {x : String} {r : Atom ν} (hx : b.find? x = none) (hr : b.subst r = r)
    (hocc : x ∉ r.vars) : step ⟨(.var x, r) :: rest, b, o⟩ = some ⟨rest, b.insert x r, o⟩ := by
  have hbind : assign.bindTo ⟨rest, b, o⟩ x r = some ⟨rest, b.insert x r, o⟩ := by
    simp [assign.bindTo, hx, hocc]
  simp only [step, Bindings.subst_var_of_free hx, hr, Atom.var_beq_eq_false hocc, assign]
  cases r with
  | var y =>
    have hne : y ≠ x := by
      rintro rfl
      simp at hocc
    simp [hne, hbind]
  | _ => exact hbind

/-! ### Without seeds -/

theorem unify_of_beq {l r : Atom ν} (h : (l == r) = true) : unify l r ∅ = some ∅ :=
  (run_cons (step_of_beq (by rwa [Bindings.subst_empty, Bindings.subst_empty]))).trans (run_of_done rfl)

theorem unify_expr {l r : List (Atom ν)} (hne : (Atom.expr l == .expr r) = false) (hlength : l.length = r.length) :
    unify (.expr l) (.expr r) ∅ = run ⟨l.zip r, ∅, []⟩ :=
  (run_cons (step_of_expr (Bindings.subst_empty _) (Bindings.subst_empty _) hne hlength)).trans
    (by rw [List.append_nil])

theorem unify_var {x : String} {a : Atom ν} (h : x ∉ a.vars) :
    unify (.var x) a ∅ = some ((∅ : Bindings ν).insert x a) :=
  (run_cons (step_of_free rfl (Bindings.subst_empty a) h)).trans (run_of_done rfl)

end Unifier

open Unifier in
/-- Two variables for the sides of an equation are bound to the sides of another one, unless the equations pass
for the same. -/
theorem unify_sides_of_ne {p q : String} {l w : Atom ν}
    (hdiffer : (Atom.expr [.symbol "=", .var p, .var q] == .expr [.symbol "=", l, w]) = false) (hne : p ≠ q)
    (hp : p ∉ l.vars ∧ p ∉ w.vars) (hq : q ∉ l.vars ∧ q ∉ w.vars) :
    unify (.expr [.symbol "=", .var p, .var q]) (.expr [.symbol "=", l, w]) ∅ =
      some (((∅ : Bindings ν).insert p l).insert q w) := by
  have hfree (y : String) (hy : y ≠ p) : ((∅ : Bindings ν).insert p l).find? y = none := by
    rw [Bindings.find?_insert, if_neg hy]
    rfl
  have hw : ((∅ : Bindings ν).insert p l).subst w = w :=
    Bindings.subst_of_free fun y hy => hfree y (by rintro rfl; exact hp.2 hy)
  calc unify _ _ ∅
    _ = run ⟨[(.symbol "=", .symbol "="), (.var p, l), (.var q, w)], ∅, []⟩ := unify_expr hdiffer rfl
    _ = run ⟨[(.var p, l), (.var q, w)], ∅, []⟩ := run_cons (step_of_beq (Atom.beq_self _))
    _ = run ⟨[(.var q, w)], (∅ : Bindings ν).insert p l, []⟩ :=
      run_cons (step_of_free rfl (Bindings.subst_empty l) hp.1)
    _ = run ⟨[], ((∅ : Bindings ν).insert p l).insert q w, []⟩ :=
      run_cons (step_of_free (hfree q hne.symm) hw hq.2)
    _ = some (((∅ : Bindings ν).insert p l).insert q w) := run_of_done rfl

theorem unify_sides (hD : Atom.Faithful D) {p q : String} {l w : Atom ν}
    (hpD : .expr [.symbol "=", .var p, .var q] ∈ D) (hc : .expr [.symbol "=", l, w] ∈ D) (hne : p ≠ q)
    (hp : p ∉ l.vars ∧ p ∉ w.vars) (hq : q ∉ l.vars ∧ q ∉ w.vars) :
    unify (.expr [.symbol "=", .var p, .var q]) (.expr [.symbol "=", l, w]) ∅ =
      some (((∅ : Bindings ν).insert p l).insert q w) := by
  refine unify_sides_of_ne (Bool.eq_false_iff.2 fun h => ?_) hne hp hq
  have h := hD.eq_of_beq hpD hc h
  simp only [Atom.expr.injEq, List.cons.injEq, true_and] at h
  exact hp.1 (by simp [← h.1])

omit [Scalar ν] in
theorem resolve?_sides {p q : String} {l w : Atom ν} (hne : p ≠ q) (hp : p ∉ l.vars ∧ p ∉ w.vars)
    (hq : q ∉ l.vars ∧ q ∉ w.vars) :
    (((∅ : Bindings ν).insert p l).insert q w).resolve? p = some l ∧
      (((∅ : Bindings ν).insert p l).insert q w).resolve? q = some w := by
  have hfree (y : String) (hyp : y ≠ p) (hyq : y ≠ q) :
      (((∅ : Bindings ν).insert p l).insert q w).find? y = none := by
    rw [Bindings.find?_insert, if_neg hyq, Bindings.find?_insert, if_neg hyp]
    rfl
  have hself (a : Atom ν) (hap : p ∉ a.vars) (haq : q ∉ a.vars) :
      (((∅ : Bindings ν).insert p l).insert q w).subst a = a :=
    Bindings.subst_of_free fun y hy =>
      hfree y (by rintro rfl; exact hap hy) (by rintro rfl; exact haq hy)
  simp [Bindings.resolve?, Bindings.find?_insert, hne, hself l hp.1 hq.1, hself w hp.2 hq.2]

end Atomspace
