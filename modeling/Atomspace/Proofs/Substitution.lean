import Atomspace.Bindings
import Mathlib.Logic.Relation
import Mathlib.Order.Basic
/-!
# Substitution

Bindings are a graph: a variable leads to the variables of its value. Bindings are *acyclic* when
no variable leads back to itself, and *unnested* when none does so through an expression; only
variables bound to variables may then go in circles.

`mem_vars_subst` says which variables are left after a substitution: free ones, and those on a
cycle. Over unnested bindings these stand for themselves, so a second substitution changes nothing
(`subst_subst`). Over acyclic bindings a variable stands for what its value stands for
(`subst_var_of_find`). An assignment that *satisfies* bindings does not tell an atom from its
substitution (`bind_subst`).
-/

namespace Atomspace

variable {ν : Type}

namespace Atom

/-- Neither a variable nor an expression. -/
def isConstant : Atom ν → Bool
  | var _ | expr _ => false
  | _ => true

/-- Induction over atoms, in which all constants are one case. -/
@[elab_as_elim]
theorem induct {P : Atom ν → Prop} (var : ∀ x, P (var x)) (expr : ∀ l, (∀ a ∈ l, P a) → P (expr l))
    (constant : ∀ a, a.isConstant = true → P a) : ∀ a, P a
  | .var x => var x
  | .expr l => expr l fun a _ => induct var expr constant a
  | .symbol _ => constant _ rfl
  | .int _ => constant _ rfl
  | .float _ => constant _ rfl
  | .str _ => constant _ rfl
  | .list _ => constant _ rfl
  | .function _ => constant _ rfl

theorem bind_constant {a : Atom ν} (h : a.isConstant = true) (f : String → Atom ν) : a.bind f = a := by
  cases a with
  | var | expr => cases h
  | _ => rfl

theorem vars_constant {a : Atom ν} (h : a.isConstant = true) : a.vars = [] := by
  cases a with
  | var | expr => cases h
  | _ => rfl

@[simp] theorem bind_symbol (name : String) (f : String → Atom ν) : (symbol name).bind f = symbol name :=
  rfl

theorem bind_var_eq_self (a : Atom ν) : a.bind var = a := by
  induction a using induct with
  | var x => rfl
  | expr l ih => rw [bind_expr, List.map_congr_left ih, List.map_id']
  | constant a h => exact bind_constant h _

theorem bind_bind (a : Atom ν) (f g : String → Atom ν) :
    (a.bind f).bind g = a.bind fun x => (f x).bind g := by
  induction a using induct with
  | var x => rfl
  | expr l ih =>
    simp only [bind_expr, List.map_map, expr.injEq]
    exact List.map_congr_left ih
  | constant a h => rw [bind_constant h, bind_constant h, bind_constant h]

theorem bind_congr (a : Atom ν) {f g : String → Atom ν} (h : ∀ x ∈ a.vars, f x = g x) :
    a.bind f = a.bind g := by
  induction a using induct with
  | var x => exact h x (by simp)
  | expr l ih =>
    simp only [bind_expr, expr.injEq]
    apply List.map_congr_left
    intro a ha
    apply ih a ha
    intro x hx
    apply h
    exact vars_expr l ▸ List.mem_flatMap.2 ⟨a, ha, hx⟩
  | constant a hc => rw [bind_constant hc, bind_constant hc]

theorem bind_of_ground {a : Atom ν} (h : a.vars = []) (f : String → Atom ν) : a.bind f = a :=
  (a.bind_congr (by simp [h])).trans a.bind_var_eq_self

theorem eq_of_bind_eq {a : Atom ν} {f g : String → Atom ν} (h : a.bind f = a.bind g) :
    ∀ x ∈ a.vars, f x = g x := by
  induction a using induct with
  | var y =>
    intro x hx
    obtain rfl : x = y := by simpa using hx
    exact h
  | expr l ih =>
    intro x hx
    obtain ⟨a, ha, hx⟩ := List.mem_flatMap.1 (vars_expr l ▸ hx)
    rw [bind_expr, bind_expr, expr.injEq, List.map_inj_left] at h
    exact ih a ha (h a ha) x hx
  | constant a hc =>
    intro x hx
    rw [vars_constant hc] at hx
    cases hx

theorem mem_vars_bind (a : Atom ν) (f : String → Atom ν) (z : String) :
    z ∈ (a.bind f).vars ↔ ∃ x ∈ a.vars, z ∈ (f x).vars := by
  induction a using induct with
  | var x => simp
  | expr l ih =>
    simp only [bind_expr, vars_expr, List.mem_flatMap, List.mem_map]
    constructor
    · rintro ⟨_, ⟨a, ha, rfl⟩, hz⟩
      obtain ⟨x, hx, hz⟩ := (ih a ha).1 hz
      exact ⟨x, ⟨a, ha, hx⟩, hz⟩
    · rintro ⟨x, ⟨a, ha, hx⟩, hz⟩
      exact ⟨a.bind f, ⟨a, ha, rfl⟩, (ih a ha).2 ⟨x, hx, hz⟩⟩
  | constant a h => simp [bind_constant h, vars_constant h]

theorem eq_var_of_bind_eq_var {a : Atom ν} {f : String → Atom ν} {z : String} (h : a.bind f = var z) :
    ∃ x, a = var x ∧ f x = var z := by
  induction a using induct with
  | var x => exact ⟨x, rfl, h⟩
  | expr l => simp at h
  | constant a hc => rw [bind_constant hc] at h; subst h; cases hc

theorem hasVars_eq_false_iff (a : Atom ν) : a.hasVars = false ↔ a.vars = [] := by
  induction a using induct with
  | var x => simp [hasVars]
  | expr l ih =>
    simp only [hasVars, anyHasVars_eq_any, List.any_eq_false, vars_expr, List.flatMap_eq_nil_iff,
      Bool.not_eq_true]
    exact forall₂_congr ih
  | constant a h =>
    cases a with
    | var | expr => cases h
    | _ => simp [hasVars, vars]

theorem rename_of_ground {a : Atom ν} (ha : a.hasVars = false) (n : Nat) : a.rename n = a :=
  bind_of_ground ((hasVars_eq_false_iff a).1 ha) _

end Atom

namespace Bindings

/-! ## The graph of bindings -/

/-- The value of `x` has the variable `y` in it. -/
def Leads (b : Bindings ν) (x y : String) : Prop := ∃ a, b.find? x = some a ∧ y ∈ a.vars

/-- The value of `x` is the variable `y`. -/
def Renames (b : Bindings ν) (x y : String) : Prop := b.find? x = some (.var y)

/-- No variable leads back to itself. -/
def Acyclic (b : Bindings ν) : Prop := ∀ x, ¬ Relation.TransGen b.Leads x x

/-- A variable leads back to itself through an expression, so it would stand for an atom that has
itself inside. -/
def Nests (b : Bindings ν) (x : String) : Prop :=
  ∃ a, b.find? x = some a ∧ a.isVar = false ∧ ∃ y ∈ a.vars, Relation.ReflTransGen b.Leads y x

/-- No variable leads back to itself through an expression. -/
def Unnested (b : Bindings ν) : Prop := ∀ x, ¬ b.Nests x

theorem Renames.leads {b : Bindings ν} {x y : String} (h : b.Renames x y) : b.Leads x y :=
  ⟨_, h, by simp⟩

theorem Acyclic.unnested {b : Bindings ν} (hb : b.Acyclic) : b.Unnested := by
  rintro x ⟨a, ha, -, y, hy, hyx⟩
  exact hb x (.head' ⟨a, ha, hy⟩ hyx)

/-- A free variable leads nowhere. -/
theorem Leads.bound {b : Bindings ν} {x y : String} (h : b.Leads x y) : b.find? x ≠ none := by
  obtain ⟨a, ha, -⟩ := h
  rw [ha]
  exact Option.some_ne_none a

theorem bound_of_cycle {b : Bindings ν} {x : String} (h : Relation.TransGen b.Leads x x) :
    b.find? x ≠ none := by
  obtain ⟨y, hxy, -⟩ := Relation.TransGen.head'_iff.1 h
  exact hxy.bound

theorem acyclic_empty : (∅ : Bindings ν).Acyclic :=
  fun _ h => bound_of_cycle h rfl

theorem find?_of_erase {b : Bindings ν} {x y : String} {a : Atom ν} (h : (b.erase x).find? y = some a) :
    b.find? y = some a := by
  rw [find?_erase] at h
  split at h
  · cases h
  · exact h

theorem free_erase {b : Bindings ν} {y : String} (h : b.find? y = none) (x : String) :
    (b.erase x).find? y = none := by
  rw [find?_erase]
  split
  · rfl
  · exact h

theorem eq_or_free_of_erase {b : Bindings ν} {x y : String} (h : (b.erase x).find? y = none) :
    y = x ∨ b.find? y = none := by
  rw [find?_erase] at h
  split at h
  · rename_i e; exact .inl e
  · exact .inr h

theorem leads_erase (b : Bindings ν) (x y z : String) :
    (b.erase x).Leads y z ↔ y ≠ x ∧ b.Leads y z := by
  simp only [Leads, find?_erase]
  split <;> simp_all

theorem renames_erase (b : Bindings ν) (x y z : String) :
    (b.erase x).Renames y z ↔ y ≠ x ∧ b.Renames y z := by
  simp only [Renames, find?_erase]
  split <;> simp_all

theorem leads_erase_le (b : Bindings ν) (x : String) : (b.erase x).Leads ≤ b.Leads :=
  fun y z h => ((leads_erase b x y z).1 h).2

theorem renames_erase_ge (b : Bindings ν) (x : String) :
    (fun y z => y ≠ x ∧ b.Renames y z) ≤ (b.erase x).Renames :=
  fun y z h => (renames_erase b x y z).2 h

/-- On a cycle of unnested bindings every value is a variable. -/
theorem Unnested.renames_of_cycle {b : Bindings ν} (hb : b.Unnested) {x : String}
    (h : Relation.TransGen b.Leads x x) : Relation.TransGen b.Renames x x := by
  -- along the cycle, `y` is what has been reached so far
  suffices ∀ y, Relation.ReflTransGen b.Leads x y → Relation.TransGen b.Leads y x →
      Relation.TransGen b.Renames y x from this x .refl h
  intro y hxy hyx
  induction hyx using Relation.TransGen.head_induction_on with
  | single hyx => exact .single (renames hyx hxy .refl)
  | head hyz hzx ih => exact .head (renames hyz hxy hzx.to_reflTransGen) (ih (hxy.tail hyz))
where
  renames {y z : String} (hyz : b.Leads y z) (hxy : Relation.ReflTransGen b.Leads x y)
      (hzx : Relation.ReflTransGen b.Leads z x) : b.Renames y z := by
    obtain ⟨a, ha, hz⟩ := hyz
    cases hv : a.isVar with
    | false => exact absurd ⟨a, ha, hv, z, hz, hzx.trans hxy⟩ (hb y)
    | true =>
      obtain ⟨w, rfl⟩ : ∃ w, a = .var w := by cases a <;> first | exact ⟨_, rfl⟩ | cases hv
      rw [Atom.vars_var, List.mem_singleton] at hz
      exact hz ▸ ha

/-- A path that leaves `x` for good starts right after its last visit. -/
theorem exists_path_avoiding {r : String → String → Prop} {x z : String} (h : Relation.TransGen r x z) :
    ∃ y, r x y ∧ Relation.ReflTransGen (fun u v => u ≠ x ∧ r u v) y z := by
  -- seen from its end: the rest of the path avoids `x`, or it has left `x` for good before
  have key : ∀ w, Relation.ReflTransGen r w z →
      Relation.ReflTransGen (fun u v => u ≠ x ∧ r u v) w z ∨
        ∃ y, r x y ∧ Relation.ReflTransGen (fun u v => u ≠ x ∧ r u v) y z := by
    intro w hw
    induction hw using Relation.ReflTransGen.head_induction_on with
    | refl => exact .inl .refl
    | @head u v huv _ ih =>
      rcases ih with ih | ih
      · by_cases hu : u = x
        · exact .inr ⟨v, hu ▸ huv, ih⟩
        · exact .inl (.head ⟨hu, huv⟩ ih)
      · exact .inr ih
  obtain ⟨y, hxy, hyz⟩ := Relation.TransGen.head'_iff.1 h
  rcases key y hyz with h | h
  · exact ⟨y, hxy, h⟩
  · exact h

/-! ## What a variable stands for -/

theorem size_erase_lt {b : Bindings ν} {x : String} {a : Atom ν} (h : b.find? x = some a) :
    (b.erase x).size < b.size :=
  b.values.size_erase_lt x (by rw [Table.contains, show b.values.get? x = some a from h]; rfl)

theorem erase_comm (b : Bindings ν) (x y : String) : (b.erase x).erase y = (b.erase y).erase x :=
  congrArg Bindings.mk (b.values.erase_comm x y)

theorem expand_of_free {b : Bindings ν} {x : String} (h : b.find? x = none) (n : Nat) :
    b.expand n x = .var x := by
  cases n with
  | zero => rfl
  | succ n => rw [expand, h]

theorem expand_succ {b : Bindings ν} {x : String} {a : Atom ν} (h : b.find? x = some a) (n : Nat) :
    b.expand (n + 1) x = a.bind ((b.erase x).expand n) := by
  rw [expand, h]

theorem expand_zero_free {b : Bindings ν} (h : b.size ≤ 0) (x : String) : b.find? x = none := by
  cases hx : b.find? x with
  | none => rfl
  | some a => have := size_erase_lt hx; omega

/-- A longer chain than there are bound variables makes no difference. -/
theorem expand_eq_of_le (n : Nat) (b : Bindings ν) (h : b.size ≤ n) (x : String) :
    b.expand n x = b.expand b.size x := by
  -- any two bounds will do: the induction is on the one, which each step of a chain lessens
  suffices ∀ m n (b : Bindings ν), b.size ≤ m → b.size ≤ n → ∀ x, b.expand m x = b.expand n x from
    this n b.size b h (Nat.le_refl _) x
  intro m
  induction m with
  | zero =>
    intro n b hm _ x
    have hfree := expand_zero_free hm x
    rw [expand_of_free hfree, expand_of_free hfree]
  | succ m ih =>
    intro n b hm hn x
    cases hx : b.find? x with
    | none => rw [expand_of_free hx, expand_of_free hx]
    | some a =>
      have hlt := size_erase_lt hx
      obtain ⟨n, rfl⟩ : ∃ k, n = k + 1 := ⟨n - 1, by omega⟩
      rw [expand_succ hx, expand_succ hx]
      exact Atom.bind_congr a fun y _ => ih n _ (by omega) (by omega) y

theorem subst_var_of_free {b : Bindings ν} {x : String} (h : b.find? x = none) :
    b.subst (.var x) = .var x :=
  expand_of_free h _

/-- While a variable is replaced it is free. -/
theorem subst_var_of_find {b : Bindings ν} {x : String} {a : Atom ν} (h : b.find? x = some a) :
    b.subst (.var x) = (b.erase x).subst a := by
  have hlt := size_erase_lt h
  calc b.subst (.var x) = b.expand (b.size + 1) x := (expand_eq_of_le _ b (by omega) x).symm
    _ = a.bind ((b.erase x).expand b.size) := expand_succ h _
    _ = (b.erase x).subst a := Atom.bind_congr a fun y _ => expand_eq_of_le _ _ (by omega) y

theorem subst_of_free {b : Bindings ν} {a : Atom ν} (h : ∀ x ∈ a.vars, b.find? x = none) : b.subst a = a :=
  (a.bind_congr fun x hx => subst_var_of_free (h x hx)).trans a.bind_var_eq_self

theorem subst_empty (a : Atom ν) : (∅ : Bindings ν).subst a = a :=
  subst_of_free fun _ _ => rfl

theorem subst_expr (b : Bindings ν) (l : List (Atom ν)) : b.subst (.expr l) = .expr (l.map b.subst) :=
  Atom.bind_expr _ l

/-- What is not led to does not matter. -/
theorem expand_erase (n : Nat) : ∀ (b : Bindings ν) (x y : String),
    ¬ Relation.ReflTransGen b.Leads y x → (b.erase x).expand n y = b.expand n y := by
  induction n with
  | zero => intro _ _ _ _; rfl
  | succ n ih =>
    intro b x y h
    have hne : y ≠ x := fun e => h (e ▸ .refl)
    have hfind : (b.erase x).find? y = b.find? y := by rw [find?_erase, if_neg hne]
    cases hy : b.find? y with
    | none => rw [expand_of_free hy, expand_of_free (hfind.trans hy)]
    | some a =>
      -- `x` is freed first on the one side and `y` on the other
      rw [expand_succ hy, expand_succ (hfind.trans hy), erase_comm]
      refine Atom.bind_congr a fun z hz => ih _ x z fun hzx => h (.head ⟨a, hy, hz⟩ ?_)
      exact Relation.ReflTransGen.mono (leads_erase_le b y) _ _ hzx

/-- Over acyclic bindings a variable stands for what its value stands for. -/
theorem Acyclic.subst_var_of_find {b : Bindings ν} (hb : b.Acyclic) {x : String} {a : Atom ν}
    (h : b.find? x = some a) : b.subst (.var x) = b.subst a := by
  rw [Bindings.subst_var_of_find h]
  apply Atom.bind_congr
  intro y hy
  rw [← expand_eq_of_le b.size (b.erase x) (Nat.le_of_lt (size_erase_lt h))]
  exact expand_erase _ b x y fun hyx => hb x (.head' ⟨a, h, hy⟩ hyx)

/-! ## What is left after a substitution -/

/-- The variable is free or on a cycle, so a substitution may leave it. -/
def Idle (b : Bindings ν) (z : String) : Prop :=
  b.find? z = none ∨ Relation.TransGen b.Leads z z

/-- A variable that is idle while another one is freed is idle, or it is that other one. -/
theorem idle_of_erase {b : Bindings ν} {x z : String} (h : (b.erase x).Idle z) : z = x ∨ b.Idle z := by
  rcases h with hfree | hcycle
  · exact (eq_or_free_of_erase hfree).imp_right .inl
  · exact .inr (.inr (Relation.TransGen.mono (leads_erase_le b x) _ _ hcycle))

theorem mem_vars_expand (n : Nat) : ∀ (b : Bindings ν) (x z : String), b.size ≤ n →
    z ∈ (b.expand n x).vars → Relation.ReflTransGen b.Leads x z ∧ b.Idle z := by
  induction n with
  | zero =>
    intro b x z h hz
    obtain rfl : z = x := by simpa [expand] using hz
    exact ⟨.refl, .inl (expand_zero_free h z)⟩
  | succ n ih =>
    intro b x z h hz
    cases hx : b.find? x with
    | none =>
      obtain rfl : z = x := by simpa [expand_of_free hx] using hz
      exact ⟨.refl, .inl hx⟩
    | some a =>
      rw [expand_succ hx, Atom.mem_vars_bind] at hz
      obtain ⟨y, hy, hz⟩ := hz
      have hlt := size_erase_lt hx
      obtain ⟨hyz, hidle⟩ := ih _ y z (by omega) hz
      have hxz : Relation.TransGen b.Leads x z :=
        .head' ⟨a, hx, hy⟩ (Relation.ReflTransGen.mono (leads_erase_le b x) _ _ hyz)
      refine ⟨hxz.to_reflTransGen, ?_⟩
      -- `x` itself is met again only on a cycle
      rcases idle_of_erase hidle with rfl | hidle
      · exact .inr hxz
      · exact hidle

/-- The variables of a substituted atom are led to, and each is free or on a cycle. -/
theorem mem_vars_subst {b : Bindings ν} {a : Atom ν} {z : String} (h : z ∈ (b.subst a).vars) :
    (∃ x ∈ a.vars, Relation.ReflTransGen b.Leads x z) ∧ b.Idle z := by
  obtain ⟨x, hx, hz⟩ := (Atom.mem_vars_bind a _ z).1 h
  obtain ⟨hxz, hidle⟩ := mem_vars_expand b.size b x z (Nat.le_refl _) hz
  exact ⟨⟨x, hx, hxz⟩, hidle⟩

theorem Acyclic.free_of_mem_vars_subst {b : Bindings ν} (hb : b.Acyclic) {a : Atom ν} {z : String}
    (h : z ∈ (b.subst a).vars) : b.find? z = none :=
  (mem_vars_subst h).2.resolve_right (hb z)

theorem expand_of_renames (n : Nat) : ∀ (b : Bindings ν) (x z : String), b.size ≤ n →
    Relation.ReflTransGen b.Renames x z → b.find? z = none → b.expand n x = .var z := by
  induction n with
  | zero =>
    intro b x z h hxz _
    rcases Relation.ReflTransGen.cases_head hxz with rfl | ⟨y, hy, -⟩
    · rfl
    · cases (expand_zero_free h x).symm.trans hy
  | succ n ih =>
    intro b x z h hxz hz
    rcases Relation.reflTransGen_iff_eq_or_transGen.1 hxz with rfl | hxz
    · exact expand_of_free hz _
    obtain ⟨y, hxy, hyz⟩ := exists_path_avoiding hxz
    have hlt := size_erase_lt hxy
    rw [expand_succ hxy]
    exact ih _ y z (by omega) (Relation.ReflTransGen.mono (renames_erase_ge b x) _ _ hyz)
      (free_erase hz x)

/-- A variable on a circle of variables stands for itself. -/
theorem expand_of_circle {b : Bindings ν} {z : String} (h : Relation.TransGen b.Renames z z) (n : Nat)
    (hn : b.size ≤ n) : b.expand n z = .var z := by
  obtain ⟨y, hzy, hyz⟩ := exists_path_avoiding h
  have hlt := size_erase_lt hzy
  obtain ⟨n, rfl⟩ : ∃ k, n = k + 1 := ⟨n - 1, by omega⟩
  rw [expand_succ hzy]
  refine expand_of_renames n _ y z (by omega)
    (Relation.ReflTransGen.mono (renames_erase_ge b z) _ _ hyz) ?_
  rw [find?_erase, if_pos rfl]

/-- Over unnested bindings a second substitution changes nothing. -/
theorem Unnested.subst_subst {b : Bindings ν} (hb : b.Unnested) (a : Atom ν) :
    b.subst (b.subst a) = b.subst a := by
  refine (Atom.bind_congr _ fun z hz => ?_).trans (Atom.bind_var_eq_self _)
  rcases (mem_vars_subst hz).2 with hfree | hcycle
  · exact expand_of_free hfree _
  · exact expand_of_circle (hb.renames_of_cycle hcycle) _ (Nat.le_refl _)

/-! ## Binding a free variable -/

theorem leads_insert (b : Bindings ν) (x : String) (v : Atom ν) (y z : String) :
    (b.insert x v).Leads y z ↔ y = x ∧ z ∈ v.vars ∨ y ≠ x ∧ b.Leads y z := by
  simp only [Leads, find?_insert]
  split <;> simp_all

section Insert
variable {b : Bindings ν} {x : String} {a : Atom ν}

/-- From a variable of a substituted atom other than `x`, only such variables are led to when `x`
is bound. -/
theorem Unnested.idle_of_leads (hb : b.Unnested) (hx : b.find? x = none) {y z : String}
    (hy : y ≠ x ∧ b.Idle y) (h : (b.insert x (b.subst a)).Leads y z) : z ≠ x ∧ b.Idle z := by
  obtain ⟨hne, hy⟩ := hy
  have hyz : b.Leads y z := ((leads_insert b x _ y z).1 h).elim (fun h => absurd h.1 hne) And.right
  have hcycle := hy.resolve_left hyz.bound
  obtain ⟨w, hyw, hwy⟩ := Relation.TransGen.head'_iff.1 (hb.renames_of_cycle hcycle)
  obtain ⟨c, hc, hz⟩ := hyz
  obtain rfl : c = .var w := Option.some.inj (hc.symm.trans hyw)
  obtain rfl : z = w := by simpa using hz
  have hzz : Relation.TransGen b.Leads z z :=
    .tail' (Relation.ReflTransGen.mono (fun _ _ => Renames.leads) _ _ hwy) hyw.leads
  refine ⟨?_, .inr hzz⟩
  rintro rfl
  exact bound_of_cycle hzz hx

/-- Binding a free variable to a substituted atom that it does not occur in closes no new cycle. -/
theorem Unnested.cycle_of_insert (hb : b.Unnested) (hx : b.find? x = none) (hv : x ∉ (b.subst a).vars)
    {y : String} (h : Relation.TransGen (b.insert x (b.subst a)).Leads y y) :
    Relation.TransGen b.Leads y y := by
  -- the variables of the new value are idle: they stay so along every path, and so never lead to `x`
  have idle : ∀ z ∈ (b.subst a).vars, z ≠ x ∧ b.Idle z :=
    fun z hz => ⟨fun e => hv (e ▸ hz), (mem_vars_subst hz).2⟩
  have idle_path : ∀ w z, Relation.ReflTransGen (b.insert x (b.subst a)).Leads w z →
      w ≠ x ∧ b.Idle w → z ≠ x ∧ b.Idle z := by
    intro w z hwz hw
    induction hwz with
    | refl => exact hw
    | tail _ h ih => exact hb.idle_of_leads hx ih h
  have key : ∀ w, Relation.ReflTransGen (b.insert x (b.subst a)).Leads w y →
      Relation.ReflTransGen b.Leads w y ∨ y ≠ x ∧ b.Idle y := by
    intro w hwy
    induction hwy using Relation.ReflTransGen.head_induction_on with
    | refl => exact .inl .refl
    | @head u v huv hvy ih =>
      rcases ih with ih | ih
      · rcases (leads_insert b x _ u v).1 huv with ⟨-, hv⟩ | ⟨-, huv⟩
        · exact .inr (idle_path v y hvy (idle v hv))
        · exact .inl (.head huv ih)
      · exact .inr ih
  obtain ⟨w, hyw, hwy⟩ := Relation.TransGen.head'_iff.1 h
  rcases (leads_insert b x _ y w).1 hyw with ⟨rfl, hw⟩ | ⟨-, hyw⟩
  · exact absurd rfl (idle_path w y hwy (idle w hw)).1
  rcases key w hwy with hwy | ⟨-, hidle⟩
  · exact .head' hyw hwy
  · exact hidle.resolve_left hyw.bound

theorem Acyclic.insert (hb : b.Acyclic) (hx : b.find? x = none) (hv : x ∉ (b.subst a).vars) :
    (b.insert x (b.subst a)).Acyclic :=
  fun y h => hb y (hb.unnested.cycle_of_insert hx hv h)

theorem Unnested.insert (hb : b.Unnested) (hx : b.find? x = none) (hv : x ∉ (b.subst a).vars) :
    (b.insert x (b.subst a)).Unnested := by
  rintro y ⟨c, hc, hvar, z, hz, hzy⟩
  -- `y` was on a cycle before, so its value is a variable
  have hcycle := hb.cycle_of_insert hx hv (.head' ⟨c, hc, hz⟩ hzy)
  obtain ⟨w, hyw, -⟩ := Relation.TransGen.head'_iff.1 (hb.renames_of_cycle hcycle)
  have hne : y ≠ x := by
    rintro rfl
    exact bound_of_cycle hcycle hx
  rw [find?_insert, if_neg hne, hyw] at hc
  cases hc
  cases hvar

end Insert

/-! ## Assignments -/

/-- An assignment makes every bound variable equal to its value. -/
def Holds (b : Bindings ν) (s : String → Atom ν) : Prop := ∀ x a, b.find? x = some a → s x = a.bind s

theorem holds_empty (s : String → Atom ν) : (∅ : Bindings ν).Holds s := by
  intro x a h
  cases h

theorem Holds.erase {b : Bindings ν} {s : String → Atom ν} (h : b.Holds s) (x : String) :
    (b.erase x).Holds s :=
  fun y a hy => h y a (find?_of_erase hy)

theorem Holds.bind_expand {s : String → Atom ν} (n : Nat) : ∀ {b : Bindings ν}, b.Holds s →
    ∀ x, (b.expand n x).bind s = s x := by
  induction n with
  | zero => intro _ _ _; rfl
  | succ n ih =>
    intro b h x
    cases hx : b.find? x with
    | none => rw [expand_of_free hx]; rfl
    | some a =>
      rw [expand_succ hx, Atom.bind_bind, h x a hx]
      exact Atom.bind_congr a fun y _ => ih (h.erase x) y

/-- An assignment that satisfies bindings does not tell an atom from its substitution. -/
theorem Holds.bind_subst {b : Bindings ν} {s : String → Atom ν} (h : b.Holds s) (a : Atom ν) :
    (b.subst a).bind s = a.bind s :=
  (Atom.bind_bind a _ s).trans (Atom.bind_congr a fun x _ => h.bind_expand b.size x)

/-- Acyclic bindings are satisfied by what their variables stand for. -/
theorem Acyclic.holds_subst {b : Bindings ν} (hb : b.Acyclic) : b.Holds fun x => b.subst (.var x) :=
  fun _ _ h => hb.subst_var_of_find h

theorem holds_insert {b : Bindings ν} {x : String} (hx : b.find? x = none) (v : Atom ν)
    (s : String → Atom ν) : (b.insert x v).Holds s ↔ b.Holds s ∧ s x = v.bind s := by
  constructor
  · refine fun h => ⟨fun y a hy => h y a ?_, h x v ?_⟩
    · rw [find?_insert, if_neg (fun e => by rw [e, hx] at hy; cases hy), hy]
    · rw [find?_insert, if_pos rfl]
  · rintro ⟨h, hv⟩ y a hy
    rw [find?_insert] at hy
    split at hy
    · rename_i e; cases hy; rw [e, hv]
    · exact h y a hy

end Bindings

end Atomspace
