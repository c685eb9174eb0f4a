import Atomspace.Proofs.Unification
import Mathlib.Data.Finset.Card
import Mathlib.Data.Finset.Filter
import Mathlib.Order.WellFounded
/-!
# Runs that end

A run of a unification *halts* when finitely many steps empty its list of pairs or fail. Over
unnested bindings every run halts (`halts_of_unnested`): a step binds one of finitely many free
variables, or reopens one that was not reopened before, or leaves less to compare.
-/

namespace Atomspace

variable {ν : Type}

namespace Unifier

/-! ## The measure -/

/-- All variables of the unification are in `V`, and no value has itself inside. -/
structure InScope (V : Finset String) (u : Unifier ν) : Prop where
  unnested : u.bindings.Unnested
  value : ∀ x a, u.bindings.find? x = some a → ∀ y ∈ a.vars, y ∈ V
  pair : ∀ p ∈ u.pending, (∀ y ∈ p.1.vars, y ∈ V) ∧ ∀ y ∈ p.2.vars, y ∈ V

/-- The free variables, and those that were not reopened. -/
def untouched (V : Finset String) (u : Unifier ν) : Nat :=
  (V.filter fun x => (u.bindings.find? x).isNone).card + (V.filter fun x => x ∉ u.reopened).card

/-- How much is left to compare. -/
def load (u : Unifier ν) : Nat :=
  (u.pending.map fun p => (u.bindings.subst p.1).size + (u.bindings.subst p.2).size).sum

theorem InScope.subst {V : Finset String} {u : Unifier ν} (h : u.InScope V) {a : Atom ν}
    (ha : ∀ y ∈ a.vars, y ∈ V) : ∀ y ∈ (u.bindings.subst a).vars, y ∈ V := by
  intro y hy
  obtain ⟨⟨x, hx, hxy⟩, -⟩ := Bindings.mem_vars_subst hy
  induction hxy with
  | refl => exact ha _ hx
  | tail _ h' _ =>
    obtain ⟨c, hc, hz⟩ := h'
    exact h.value _ c hc _ hz

theorem untouched_insert {V : Finset String} (u : Unifier ν) {x : String} (v : Atom ν) (hV : x ∈ V)
    (hx : u.bindings.find? x = none) :
    untouched V { u with bindings := u.bindings.insert x v } < u.untouched V := by
  apply Nat.add_lt_add_right
  apply Finset.card_lt_card
  refine (Finset.ssubset_iff_of_subset ?_).2 ⟨x, ?_, ?_⟩
  · intro y hy
    simp only [Finset.mem_filter, Bindings.find?_insert] at hy ⊢
    refine ⟨hy.1, ?_⟩
    have := hy.2
    split at this
    · cases this
    · exact this
  · simp [hV, hx]
  · simp [Bindings.find?_insert]

theorem untouched_reopen {V : Finset String} (u : Unifier ν) {x : String} (hV : x ∈ V)
    (hx : x ∉ u.reopened) (l : List (Atom ν × Atom ν)) :
    untouched V { u with pending := l, reopened := x :: u.reopened } < u.untouched V := by
  apply Nat.add_lt_add_left
  apply Finset.card_lt_card
  refine (Finset.ssubset_iff_of_subset ?_).2 ⟨x, ?_, ?_⟩
  · intro y hy
    simp only [Finset.mem_filter, List.mem_cons, not_or] at hy ⊢
    exact ⟨hy.1, hy.2.2⟩
  · simp [hV, hx]
  · simp

theorem sum_size_zip {as bs : List (Atom ν)} (h : as.length = bs.length) :
    ((as.zip bs).map fun p => p.1.size + p.2.size).sum + 2 = (Atom.expr as).size + (Atom.expr bs).size := by
  induction as generalizing bs with
  | nil =>
    obtain rfl : bs = [] := by simpa using h.symm
    simp [Atom.size]
  | cons a as ih =>
    obtain ⟨b, bs, rfl⟩ : ∃ b l, bs = b :: l := List.exists_cons_of_length_eq_add_one h.symm
    have := ih (by simpa using h)
    simp only [Atom.size, List.zip_cons_cons, List.map_cons, List.sum_cons] at this ⊢
    omega

/-! ## Steps lessen the measure -/

section
variable {V : Finset String} {u w : Unifier ν}

theorem Assigned.inScope {x : String} {a : Atom ν} (h : Assigned u x (u.bindings.subst a) (some w))
    (hu : u.InScope V) (hx : x ∈ V) (ha : ∀ y ∈ a.vars, y ∈ V) :
    w.InScope V ∧ (w = u ∨ w.untouched V < u.untouched V) := by
  generalize hv : u.bindings.subst a = v at h
  have hvars : ∀ y ∈ v.vars, y ∈ V := hv ▸ hu.subst ha
  cases h with
  | same => exact ⟨hu, .inl rfl⟩
  | free hocc hfree =>
    refine ⟨⟨?_, ?_, hu.pair⟩, .inr (untouched_insert u v hx hfree)⟩
    · subst hv
      exact hu.unnested.insert hfree hocc
    · intro y c hy
      rw [Bindings.find?_insert] at hy
      split at hy
      · cases hy; exact hvars
      · exact hu.value y c hy
  | @reopened _ old _ hold hr =>
    refine ⟨⟨hu.unnested, hu.value, ?_⟩, .inr (untouched_reopen u hx hr _)⟩
    exact List.forall_mem_cons.2 ⟨⟨hu.value x old hold, hvars⟩, hu.pair⟩

theorem subst_eq_of_mem {b : Bindings ν} {l : List (Atom ν)} (h : b.subst (.expr l) = .expr l)
    {a : Atom ν} (ha : a ∈ l) : b.subst a = a := by
  rw [Bindings.subst_expr, Atom.expr.injEq] at h
  exact List.map_inj_left.1 (h.trans (List.map_id' l).symm) a ha

variable [Scalar ν]

theorem Settled.inScope {l r : Atom ν} (h : Settled u l r (some w)) (hu : u.InScope V)
    (hl : u.bindings.subst l = l) (hr : u.bindings.subst r = r)
    (hlV : ∀ y ∈ l.vars, y ∈ V) (hrV : ∀ y ∈ r.vars, y ∈ V) :
    w.InScope V ∧ (w.untouched V < u.untouched V ∨
      w.untouched V = u.untouched V ∧ w.load < u.load + (l.size + r.size)) := by
  have hdrop : u.load < u.load + (l.size + r.size) := by have := l.size_pos; omega
  cases h with
  | equal => exact ⟨hu, .inr ⟨rfl, hdrop⟩⟩
  | left _ ha =>
    obtain ⟨hw, rfl | hlt⟩ := ha.inScope hu (hlV _ (by simp)) hrV
    · exact ⟨hw, .inr ⟨rfl, hdrop⟩⟩
    · exact ⟨hw, .inl hlt⟩
  | right _ ha =>
    obtain ⟨hw, rfl | hlt⟩ := ha.inScope hu (hrV _ (by simp)) hlV
    · exact ⟨hw, .inr ⟨rfl, hdrop⟩⟩
    · exact ⟨hw, .inl hlt⟩
  | @split as bs _ hlen =>
    have below : ∀ p ∈ as.zip bs, p.1 ∈ as ∧ p.2 ∈ bs := fun p hp => List.of_mem_zip hp
    -- the children were substituted along with the pair, so they count for what they are
    have hself : ∀ p ∈ as.zip bs, (u.bindings.subst p.1).size + (u.bindings.subst p.2).size =
        p.1.size + p.2.size := by
      intro p hp
      rw [subst_eq_of_mem hl (below p hp).1, subst_eq_of_mem hr (below p hp).2]
    refine ⟨⟨hu.unnested, hu.value, ?_⟩, .inr ⟨rfl, ?_⟩⟩
    · refine List.forall_mem_append.2 ⟨fun p hp => ⟨fun y hy => ?_, fun y hy => ?_⟩, hu.pair⟩
      · exact hlV y (Atom.vars_expr as ▸ List.mem_flatMap.2 ⟨p.1, (below p hp).1, hy⟩)
      · exact hrV y (Atom.vars_expr bs ▸ List.mem_flatMap.2 ⟨p.2, (below p hp).2, hy⟩)
    · have hsum := sum_size_zip hlen
      rw [← List.map_congr_left hself] at hsum
      simp only [load, List.map_append, List.sum_append]
      omega

theorem InScope.step (hu : u.InScope V) (hp : u.pending ≠ []) (h : u.step = some w) :
    w.InScope V ∧ (w.untouched V < u.untouched V ∨
      w.untouched V = u.untouched V ∧ w.load < u.load) := by
  obtain ⟨⟨l, r⟩, rest, hlr⟩ := List.exists_cons_of_ne_nil hp
  obtain ⟨⟨hlV, hrV⟩, hrest⟩ := List.forall_mem_cons.1 (hlr ▸ hu.pair)
  have hs := settled_step hlr
  rw [h] at hs
  have := hs.inScope ⟨hu.unnested, hu.value, hrest⟩ (hu.unnested.subst_subst l)
    (hu.unnested.subst_subst r) (hu.subst hlV) (hu.subst hrV)
  have hload : u.load = load { u with pending := rest } +
      ((u.bindings.subst l).size + (u.bindings.subst r).size) := by
    simp only [load, hlr, List.map_cons, List.sum_cons]
    omega
  rwa [← hload] at this

end

/-! ## Halting -/

section
variable [Scalar ν]

/-- Finitely many steps leave nothing pending, or fail. -/
inductive Halts : Unifier ν → Prop
  | done {u : Unifier ν} : u.pending = [] → Halts u
  | fail {u : Unifier ν} : u.step = none → Halts u
  | next {u w : Unifier ν} : u.step = some w → Halts w → Halts u

theorem run_of_done {u : Unifier ν} (h : u.pending = []) : u.run = some u.bindings := by
  rw [run, h]
  rfl

theorem run_of_fail {u : Unifier ν} (hp : u.pending ≠ []) (h : u.step = none) : u.run = none := by
  rw [run, if_neg (by simpa using hp), h]

theorem run_of_step {u w : Unifier ν} (hp : u.pending ≠ []) (h : u.step = some w) : u.run = w.run := by
  rw [run, if_neg (by simpa using hp), h]

section
variable {e : Atom ν × Atom ν} {rest : List (Atom ν × Atom ν)} {b : Bindings ν} {o : List String}

theorem run_cons {w : Unifier ν} (h : step ⟨e :: rest, b, o⟩ = some w) : run ⟨e :: rest, b, o⟩ = run w :=
  run_of_step (List.cons_ne_nil e rest) h

theorem run_cons_eq_none (h : step ⟨e :: rest, b, o⟩ = none) : run ⟨e :: rest, b, o⟩ = none :=
  run_of_fail (List.cons_ne_nil e rest) h

end

theorem step_of_done {u : Unifier ν} (h : u.pending = []) : u.step = some u := by
  rw [step, h]

theorem InScope.halts {V : Finset String} (u : Unifier ν) (hu : u.InScope V) : u.Halts := by
  by_cases hp : u.pending = []
  · exact .done hp
  cases h : u.step with
  | none => exact .fail h
  | some w =>
    obtain ⟨hw, hlt⟩ := hu.step hp h
    exact .next h (InScope.halts w hw)
termination_by (u.untouched V, u.load)
decreasing_by
  rcases hlt with hlt | ⟨heq, hlt⟩
  · exact Prod.Lex.left _ _ hlt
  · rw [heq]; exact Prod.Lex.right _ hlt

omit [Scalar ν] in
/-- The variables that come up in a unification are finitely many. -/
theorem exists_inScope {u : Unifier ν} (h : u.bindings.Unnested) : ∃ V, u.InScope V := by
  refine ⟨(u.bindings.values.values.flatMap Atom.vars ++
    u.pending.flatMap fun p => p.1.vars ++ p.2.vars).toFinset, h, ?_, ?_⟩
  · intro x a hx y hy
    have := List.mem_flatMap.2 ⟨a, Table.mem_values_of_get? hx, hy⟩
    simp only [List.mem_toFinset, List.mem_append]
    exact .inl this
  · intro p hp
    have hmem : ∀ y ∈ p.1.vars ++ p.2.vars, y ∈ u.pending.flatMap fun p => p.1.vars ++ p.2.vars :=
      fun y hy => List.mem_flatMap.2 ⟨p, hp, hy⟩
    simp only [List.mem_toFinset, List.mem_append]
    exact ⟨fun y hy => .inr (hmem y (List.mem_append_left _ hy)),
      fun y hy => .inr (hmem y (List.mem_append_right _ hy))⟩

/-- Over unnested bindings every unification halts. -/
theorem halts_of_unnested {initial : Bindings ν} (h : initial.Unnested) (l r : Atom ν) :
    (start l r initial).Halts := by
  obtain ⟨V, hV⟩ := exists_inScope (u := start l r initial) h
  exact hV.halts

end

end Unifier

end Atomspace
