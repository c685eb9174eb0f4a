import Atomspace.Proofs.Identity
import Atomspace.Unify
import Mathlib.Algebra.Ring.Nat
/-!
# Unification solves its equations

`Settled` sums up what one step of a unification does, `Assigned` what assigning a variable does.
No step changes the assignments that solve all that is bound and pending (`solved_step`), and a
step that fails leaves none (`unsolvable_step`).
-/

namespace Atomspace

variable {ν : Type}

/-! ## Sizes -/

/-- The number of atoms in an atom. -/
def Atom.size : Atom ν → Nat
  | .expr children => (children.map size).sum + 1
  | _ => 1

theorem Atom.size_pos (a : Atom ν) : 0 < a.size := by
  cases a <;> simp [size]

theorem Atom.size_lt_of_mem {l : List (Atom ν)} {a : Atom ν} (h : a ∈ l) : a.size < (expr l).size := by
  induction l with
  | nil => cases h
  | cons b l ih =>
    simp only [size, List.map_cons, List.sum_cons] at ih ⊢
    rcases List.mem_cons.1 h with rfl | h
    · omega
    · have := ih h
      omega

/-- What a variable becomes is no larger than what an atom with the variable in it becomes. -/
theorem Atom.size_le_of_mem_vars (s : String → Atom ν) {a : Atom ν} {x : String} (h : x ∈ a.vars) :
    (s x).size ≤ (a.bind s).size := by
  induction a using Atom.induct with
  | var y =>
    obtain rfl : x = y := by simpa using h
    exact Nat.le_refl _
  | expr l ih =>
    obtain ⟨a, ha, hx⟩ := List.mem_flatMap.1 (vars_expr l ▸ h)
    rw [bind_expr]
    exact Nat.le_trans (ih a ha hx) (Nat.le_of_lt (size_lt_of_mem (List.mem_map_of_mem ha)))
  | constant a hc => rw [vars_constant hc] at h; cases h

/-- No assignment makes a variable equal to another atom that it occurs in. -/
theorem Atom.ne_bind_of_occurs (s : String → Atom ν) {a : Atom ν} {x : String} (hx : x ∈ a.vars)
    (ha : a ≠ .var x) : s x ≠ a.bind s := by
  intro h
  cases a with
  | var y =>
    obtain rfl : x = y := by simpa using hx
    exact ha rfl
  | expr l =>
    obtain ⟨a, hl, hxa⟩ := List.mem_flatMap.1 (vars_expr l ▸ hx)
    -- the child with `x` in it becomes as large as `x` does, and the whole still larger
    have h1 := size_le_of_mem_vars s hxa
    have h2 : (a.bind s).size < (expr (l.map (bind s))).size := size_lt_of_mem (List.mem_map_of_mem hl)
    rw [h, bind_expr] at h1
    omega
  | _ => cases hx

namespace Unifier

/-- The assignment satisfies the bindings and makes the atoms of every pending pair equal. -/
def Solved (u : Unifier ν) (s : String → Atom ν) : Prop :=
  u.bindings.Holds s ∧ ∀ p ∈ u.pending, p.1.bind s = p.2.bind s

/-! ## Assigning a variable -/

/-- What becomes of a unification when the variable `x` is assigned the substituted atom `v`. -/
inductive Assigned (u : Unifier ν) (x : String) : Atom ν → Option (Unifier ν) → Prop
  | same : Assigned u x (.var x) (some u)
  | occurs {v : Atom ν} : v ≠ .var x → x ∈ v.vars → Assigned u x v none
  | free {v : Atom ν} : x ∉ v.vars → u.bindings.find? x = none →
      Assigned u x v (some { u with bindings := u.bindings.insert x v })
  | reopened {v old : Atom ν} : x ∉ v.vars → u.bindings.find? x = some old → x ∉ u.reopened →
      Assigned u x v (some { u with pending := (old, v) :: u.pending, reopened := x :: u.reopened })
  | again {v old : Atom ν} : x ∉ v.vars → u.bindings.find? x = some old → x ∈ u.reopened →
      Assigned u x v none

theorem assigned_bindTo (u : Unifier ν) (x : String) {v : Atom ν} (hv : v ≠ .var x) :
    Assigned u x v (assign.bindTo u x v) := by
  unfold assign.bindTo
  split
  · rename_i h; exact .occurs hv (by simpa using h)
  · rename_i h
    have hx : x ∉ v.vars := by simpa using h
    split
    · rename_i old hold
      split
      · rename_i hr; exact .again hx hold (by simpa using hr)
      · rename_i hr; exact .reopened hx hold (by simpa using hr)
    · rename_i hnone; exact .free hx hnone

theorem assigned_assign (u : Unifier ν) (x : String) (a : Atom ν) :
    Assigned u x (u.bindings.subst a) (u.assign x a) := by
  unfold assign
  simp only
  split
  · rename_i y hy
    split
    · rename_i e; rw [hy, e]; exact .same
    · rename_i e
      exact assigned_bindTo u x (by rw [hy]; simpa using e)
  · rename_i hy
    exact assigned_bindTo u x (hy x)

theorem Assigned.solved_iff {u w : Unifier ν} {x : String} {v : Atom ν} (h : Assigned u x v (some w))
    (s : String → Atom ν) : w.Solved s ↔ u.Solved s ∧ s x = v.bind s := by
  cases h with
  | same => exact ⟨fun hs => ⟨hs, rfl⟩, And.left⟩
  | free _ hfree =>
    simp only [Solved, Bindings.holds_insert hfree]
    exact and_right_comm
  | @reopened _ old _ hold _ =>
    simp only [Solved, List.forall_mem_cons]
    constructor
    · rintro ⟨hb, ho, hp⟩
      exact ⟨⟨hb, hp⟩, (hb x old hold).trans ho⟩
    · rintro ⟨⟨hb, hp⟩, hx⟩
      exact ⟨hb, (hb x old hold).symm.trans hx, hp⟩

/-- An assignment fails only where there is no solution, unless the variable was reopened before. -/
theorem Assigned.unsolvable {u : Unifier ν} {x : String} {v : Atom ν} (h : Assigned u x v none)
    (hx : x ∈ u.reopened → u.bindings.find? x = none) (s : String → Atom ν) : s x ≠ v.bind s := by
  cases h with
  | occurs hv hocc => exact Atom.ne_bind_of_occurs s hocc hv
  | again _ hold hr => rw [hx hr] at hold; cases hold

theorem bind_zip_eq_iff (s : String → Atom ν) : ∀ {as bs : List (Atom ν)}, as.length = bs.length →
    ((∀ p ∈ as.zip bs, p.1.bind s = p.2.bind s) ↔ as.map (Atom.bind s) = bs.map (Atom.bind s))
  | [], [], _ => by simp
  | a :: as, b :: bs, h => by
    have ih := bind_zip_eq_iff s (show as.length = bs.length by simpa using h)
    rw [List.zip_cons_cons, List.forall_mem_cons, ih, List.map_cons, List.map_cons, List.cons.injEq]

/-! ## What a step does -/

variable [Scalar ν]

/-- What becomes of a unification whose first pending pair, taken off and substituted, is `l` and
`r`. -/
inductive Settled (u : Unifier ν) : Atom ν → Atom ν → Option (Unifier ν) → Prop
  | equal {l r : Atom ν} : (l == r) = true → Settled u l r (some u)
  | left {x : String} {r : Atom ν} {o : Option (Unifier ν)} : (.var x == r) = false →
      Assigned u x (u.bindings.subst r) o → Settled u (.var x) r o
  | right {l : Atom ν} {x : String} {o : Option (Unifier ν)} : (l == .var x) = false →
      Assigned u x (u.bindings.subst l) o → Settled u l (.var x) o
  | split {as bs : List (Atom ν)} : (.expr as == (.expr bs : Atom ν)) = false → as.length = bs.length →
      Settled u (.expr as) (.expr bs) (some { u with pending := as.zip bs ++ u.pending })
  | length {as bs : List (Atom ν)} : as.length ≠ bs.length → Settled u (.expr as) (.expr bs) none
  | clash {l r : Atom ν} : (l == r) = false → l.isVar = false → r.isVar = false →
      (l.isConstant = true ∨ r.isConstant = true) → Settled u l r none

theorem settled_step {u : Unifier ν} {l r : Atom ν} {rest : List (Atom ν × Atom ν)}
    (h : u.pending = (l, r) :: rest) :
    Settled { u with pending := rest } (u.bindings.subst l) (u.bindings.subst r) u.step := by
  unfold step
  rw [h]
  simp only
  generalize u.bindings.subst l = l, u.bindings.subst r = r
  split
  · rename_i e; exact .equal e
  rename_i e
  have e : (l == r) = false := by simpa using e
  split
  · exact .left e (assigned_assign ..)
  · exact .right e (assigned_assign ..)
  · split
    · rename_i hl; exact .split e hl
    · rename_i hl; exact .length hl
  · -- no side is a variable, and at most one is an expression
    rename_i hl hr hlr
    cases l with
    | var x => exact absurd rfl (hl x)
    | expr as =>
      cases r with
      | var x => exact absurd rfl (hr x)
      | expr bs => exact (hlr as bs rfl rfl).elim
      | _ => exact .clash e rfl rfl (.inr rfl)
    | _ =>
      cases r with
      | var x => exact absurd rfl (hr x)
      | _ => exact .clash e rfl rfl (.inl rfl)

/-- What a step needs of its first pair, beyond what it leaves to do. -/
theorem Settled.solved_iff {u w : Unifier ν} {l r : Atom ν} (h : Settled u l r (some w))
    (heq : (l == r) = true → l = r) (hl : u.bindings.subst l = l) (hr : u.bindings.subst r = r)
    (s : String → Atom ν) : w.Solved s ↔ u.Solved s ∧ l.bind s = r.bind s := by
  cases h with
  | equal e =>
    rw [heq e]
    exact ⟨fun hs => ⟨hs, rfl⟩, And.left⟩
  | left _ ha =>
    rw [hr] at ha
    exact ha.solved_iff s
  | right _ ha =>
    rw [hl] at ha
    rw [ha.solved_iff s, Atom.bind_var, eq_comm]
  | split _ hlen =>
    simp only [Solved, List.forall_mem_append, bind_zip_eq_iff s hlen, Atom.bind_expr, Atom.expr.injEq]
    exact and_left_comm.trans and_comm

/-- A step fails only where the atoms of its first pair cannot be made equal. -/
theorem Settled.unsolvable {u : Unifier ν} {l r : Atom ν} (h : Settled u l r none)
    (hl : u.bindings.subst l = l) (hr : u.bindings.subst r = r)
    (hfree : ∀ x, l = .var x ∨ r = .var x → u.bindings.find? x = none) (s : String → Atom ν) :
    l.bind s ≠ r.bind s := by
  cases h with
  | left _ ha =>
    rw [hr] at ha
    exact ha.unsolvable (fun _ => hfree _ (.inl rfl)) s
  | right _ ha =>
    rw [hl] at ha
    exact (ha.unsolvable (fun _ => hfree _ (.inr rfl)) s).symm
  | length hlen =>
    intro e
    rw [Atom.bind_expr, Atom.bind_expr, Atom.expr.injEq] at e
    exact hlen (by simpa using congrArg List.length e)
  | clash e hlv hrv hc =>
    -- an assignment leaves the constant as it is, and makes no constant out of an expression
    intro hs
    rcases hc with hc | hc
    · rw [Atom.bind_constant hc] at hs
      cases r with
      | var => cases hrv
      | expr => rw [hs] at hc; simp [Atom.isConstant] at hc
      | _ => exact Atom.ne_of_beq_eq_false e hs
    · rw [Atom.bind_constant hc] at hs
      cases l with
      | var => cases hlv
      | expr => rw [← hs] at hc; simp [Atom.isConstant] at hc
      | _ => exact Atom.ne_of_beq_eq_false e hs

/-! ## What every step keeps -/

/-- The bindings are acyclic, and all that is bound or pending is in the set. -/
structure Clean (D : Set (Atom ν)) (u : Unifier ν) : Prop where
  acyclic : u.bindings.Acyclic
  within : u.bindings.Within D
  pair : ∀ p ∈ u.pending, p.1 ∈ D ∧ p.2 ∈ D

section
variable {D : Set (Atom ν)} {u w : Unifier ν}

omit [Scalar ν] in
theorem Assigned.clean {x : String} {a : Atom ν} (h : Assigned u x (u.bindings.subst a) (some w))
    (hu : u.Clean D) (ha : u.bindings.subst a ∈ D) : w.Clean D := by
  generalize hv : u.bindings.subst a = v at h ha
  cases h with
  | same => exact hu
  | free hocc hfree =>
    subst hv
    exact ⟨hu.acyclic.insert hfree hocc, hu.within.insert x ha, hu.pair⟩
  | @reopened _ old _ hold _ =>
    exact ⟨hu.acyclic, hu.within, List.forall_mem_cons.2 ⟨⟨hu.within x old hold, ha⟩, hu.pair⟩⟩

theorem Settled.clean {l r : Atom ν} (h : Settled u l r (some w)) (hD : Atom.Faithful D)
    (hu : u.Clean D) (hl : l ∈ D) (hr : r ∈ D) : w.Clean D := by
  cases h with
  | equal => exact hu
  | left _ ha => exact ha.clean hu (hu.within.subst_mem hD hr)
  | right _ ha => exact ha.clean hu (hu.within.subst_mem hD hl)
  | split =>
    refine ⟨hu.acyclic, hu.within, List.forall_mem_append.2 ⟨?_, hu.pair⟩⟩
    intro p hp
    obtain ⟨h1, h2⟩ := List.of_mem_zip hp
    exact ⟨hD.part hl h1, hD.part hr h2⟩

/-- A step keeps the assignments that solve all that is bound and pending. -/
theorem solved_step (hD : Atom.Faithful D) (hu : u.Clean D) (hp : u.pending ≠ [])
    (h : u.step = some w) : w.Clean D ∧ ∀ s, w.Solved s ↔ u.Solved s := by
  obtain ⟨⟨l, r⟩, rest, hlr⟩ := List.exists_cons_of_ne_nil hp
  obtain ⟨⟨hl, hr⟩, hrest⟩ := List.forall_mem_cons.1 (hlr ▸ hu.pair)
  have hs := settled_step hlr
  rw [h] at hs
  have hl' := hu.within.subst_mem hD hl
  have hr' := hu.within.subst_mem hD hr
  refine ⟨hs.clean hD ⟨hu.acyclic, hu.within, hrest⟩ hl' hr', ?_⟩
  intro s
  have hidem := hu.acyclic.unnested.subst_subst
  rw [hs.solved_iff (hD.eq_of_beq hl' hr') (hidem l) (hidem r)]
  simp only [Solved, hlr, List.forall_mem_cons]
  -- what satisfies the bindings does not tell the pair from the substituted pair
  constructor
  · rintro ⟨⟨hb, hrest⟩, he⟩
    rw [hb.bind_subst, hb.bind_subst] at he
    exact ⟨hb, he, hrest⟩
  · rintro ⟨hb, he, hrest⟩
    refine ⟨⟨hb, hrest⟩, ?_⟩
    rw [hb.bind_subst, hb.bind_subst]
    exact he

/-- A step fails only where there is no solution. -/
theorem unsolvable_step (hu : u.Clean D) (h : u.step = none) (s : String → Atom ν) : ¬ u.Solved s := by
  rintro ⟨hb, hpair⟩
  cases hlr : u.pending with
  | nil => rw [step, hlr] at h; cases h
  | cons p rest =>
    obtain ⟨l, r⟩ := p
    have hs := settled_step hlr
    rw [h] at hs
    have hidem := hu.acyclic.unnested.subst_subst
    refine hs.unsolvable (hidem l) (hidem r) ?_ s ?_
    · intro x hx
      rcases hx with hx | hx
      · exact hu.acyclic.free_of_mem_vars_subst (a := l) (by rw [hx]; simp)
      · exact hu.acyclic.free_of_mem_vars_subst (a := r) (by rw [hx]; simp)
    · rw [hb.bind_subst, hb.bind_subst]
      exact hpair (l, r) (by rw [hlr]; simp)

end

end Unifier

end Atomspace
