import Atomspace.Proofs.Soundness
import Mathlib.Data.Set.Card
/-!
# Values

`values` says what an expression without variables evaluates to, as a set: there is no order in it,
no state and no limit. It looks at a space only for the rules and declarations that it trusts.

A space is *orderly* when this makes sense: rules bring in no variables of their own, a name has
one declared number of arguments, and native code just computes.
-/

namespace Atomspace

variable {ν : Type} [Scalar ν]

/-- Where expressions can be built of atoms that their keys tell apart, so do the keys alone. -/
theorem Atom.Ample.eq_of_key {D : Set (Atom ν)} (hD : Ample D) {a b : Atom ν} (ha : a ∈ D) (hb : b ∈ D)
    (h : a.key = b.key) : a = b := by
  have hbeq : (Atom.expr [a] == Atom.expr [b]) = true := (beq_iff _ _).2 ⟨rfl, by simp [key, keys, h]⟩
  have he := hD.faithful.eq_of_beq (hD.expr (by simpa using ha)) (hD.expr (by simpa using hb)) hbeq
  simpa using he

namespace Space

/-- The atom is stored with enough confidence. -/
def Trusts (s : Space ν) (a : Atom ν) : Prop :=
  ∃ key truth, s.fact? key = some (a, truth) ∧
    Scalar.lt truth.confidence s.config.minConfidence = false

/-- The space has a rule with these sides. -/
def Rule (s : Space ν) (l q : Atom ν) : Prop := s.Trusts (.expr [.symbol "=", l, q])

/-- The space declares an arrow type for a name, with a number of arguments. A declaration may be for
a variable, which then stands for the name. -/
def Declares (s : Space ν) (name : String) (count : Nat) : Prop :=
  ∃ n head parts, s.Trusts (.expr [.symbol ":", n, .expr (head :: parts)]) ∧
    (n = .symbol name ∨ n.isVar = true) ∧ (head = .symbol "->" ∨ head = n ∧ name = "->") ∧
    count = parts.length - 1

/-- No limit cuts the query for a pattern short. -/
def Uncut (s : Space ν) (pattern : Atom ν) : Prop :=
  (s.candidates pattern).length ≤ s.config.maxCandidates ∧
    (s.examineAll pattern (s.candidates pattern)).1.length ≤ s.config.maxResults

end Space

namespace Evaluator

/-- The number of arguments agrees with the arrow types declared for a head. -/
def Agrees (s : Space ν) (head : Atom ν) (count : Nat) : Prop :=
  ∀ name k, declaredName? head = some name → s.Declares name k → count = k

/-- What an expression reduces to, if `next` has the values of the atoms one level deeper. -/
inductive Reduct (s : Space ν) (r : Registry ν) (next : Atom ν → Set (Atom ν)) (head : Atom ν)
    (args : List (Atom ν)) (v : Atom ν) : Prop
  | rule {l q : Atom ν} {f : String → Atom ν} : s.Rule l q → l.bind f = .expr (head :: args) →
      v ∈ next (q.bind f) → Reduct s r next head args v
  | native {name : String} {f : Native ν} {results : List (Atom ν)} {out : Atom ν} :
      r.resolve? head = some (name, f) → List.Forall₂ (fun a b => next a = {b}) args results →
      (f results s).1 = .ok out → v ∈ next out → Reduct s r next head args v

/-- All that an expression reduces to, unless its arguments disagree with its declared type. -/
def reducts (s : Space ν) (r : Registry ν) (next : Atom ν → Set (Atom ν)) (head : Atom ν)
    (args : List (Atom ν)) : Set (Atom ν) :=
  {v | Agrees s head args.length ∧ Reduct s r next head args v}

section
open Classical

/-- The value of an atom that has exactly one, and any other atom itself. -/
noncomputable def settle (next : Atom ν → Set (Atom ν)) (a : Atom ν) : Atom ν :=
  if h : ∃ b, next a = {b} then h.choose else a

/-- The values of an atom, with a number of levels, below the expressions of a path. -/
noncomputable def values (s : Space ν) (r : Registry ν) : Nat → Set (Atom ν) → Atom ν → Set (Atom ν)
  | depth + 1, path, .expr (head :: args) =>
    let next := values s r depth (insert (.expr (head :: args)) path)
    if .expr (head :: args) ∈ path then {.expr (head :: args)}
    else if (reducts s r next head args).Nonempty then reducts s r next head args
    else {.expr ((head :: args).map (settle next))}
  | _, _, a => {a}

end

/-! ## Orderly spaces -/

/-- The atoms of a set that have no variables. -/
def groundPart (D : Set (Atom ν)) : Set (Atom ν) := {a | a ∈ D ∧ a.vars = []}

/-- The code just computes, and of atoms without variables it makes an atom without variables. -/
def Computes (D : Set (Atom ν)) (f : Native ν) : Prop :=
  ∃ g, f = Native.pure g ∧
    ∀ args out, (∀ a ∈ args, a ∈ groundPart D) → g args = .ok out → out ∈ groundPart D

/-- A space over a set of atoms in which values make sense. -/
structure Orderly (D : Set (Atom ν)) (s : Space ν) (r : Registry ν) : Prop where
  ample : Atom.Ample D
  colon : .symbol ":" ∈ D
  names : ∀ head ∈ D, ∀ name, declaredName? head = some name → .symbol name ∈ D
  reachable : s.Reachable
  within : s.Within D
  headed : ∀ x l q, ¬ s.Trusts (.expr [.var x, l, q])
  closed : ∀ l q, s.Rule l q → ∀ x ∈ q.vars, x ∈ l.vars
  declared : ∀ name j k, s.Declares name j → s.Declares name k → j = k
  code : ∀ head name f, r.resolve? head = some (name, f) → Computes D f

section
variable {D : Set (Atom ν)} {s : Space ν} {r : Registry ν}

theorem Orderly.trusts_mem (h : Orderly D s r) {a : Atom ν} (ha : s.Trusts a) : a ∈ D := by
  obtain ⟨key, truth, hfact, -⟩ := ha
  exact h.within.fact hfact

/-- A rule without variables on the left has none on the right. -/
theorem Orderly.ground_of_rule (h : Orderly D s r) {l q : Atom ν} (hrule : s.Rule l q) (hl : l.vars = []) :
    q.vars = [] := by
  refine List.eq_nil_iff_forall_not_mem.2 fun x hx => ?_
  have hmem := h.closed l q hrule x hx
  rw [hl] at hmem
  cases hmem

theorem groundPart_expr (hD : Atom.Ample D) {l : List (Atom ν)} :
    .expr l ∈ groundPart D ↔ ∀ a ∈ l, a ∈ groundPart D := by
  constructor
  · rintro ⟨hl, hvars⟩ a ha
    rw [Atom.vars_expr, List.flatMap_eq_nil_iff] at hvars
    exact ⟨hD.faithful.part hl ha, hvars a ha⟩
  · intro h
    refine ⟨hD.expr fun a ha => (h a ha).1, ?_⟩
    rw [Atom.vars_expr, List.flatMap_eq_nil_iff]
    exact fun a ha => (h a ha).2

/-- Where an atom becomes one without variables, its variables stand for such atoms. -/
theorem mem_groundPart_of_bind (hD : Atom.Ample D) {a : Atom ν} {f : String → Atom ν}
    (h : a.bind f ∈ groundPart D) : ∀ x ∈ a.vars, f x ∈ groundPart D := by
  induction a using Atom.induct with
  | var y =>
    intro x hx
    rwa [List.mem_singleton.1 hx]
  | expr l ih =>
    intro x hx
    obtain ⟨a, ha, hx⟩ := List.mem_flatMap.1 (Atom.vars_expr l ▸ hx)
    rw [Atom.bind_expr, groundPart_expr hD] at h
    exact ih a ha (h _ (List.mem_map_of_mem ha)) x hx
  | constant a hc =>
    intro x hx
    rw [Atom.vars_constant hc] at hx
    cases hx

theorem Orderly.rule_mem (h : Orderly D s r) {l q : Atom ν} {f : String → Atom ν} (hrule : s.Rule l q)
    (hl : l.bind f ∈ groundPart D) : q.bind f ∈ groundPart D := by
  have hq := h.ample.faithful.part (h.trusts_mem hrule) (a := q) (by simp)
  have hf : ∀ x ∈ q.vars, f x ∈ groundPart D := fun x hx =>
    mem_groundPart_of_bind h.ample hl x (h.closed l q hrule x hx)
  refine ⟨h.ample.faithful.bind hq fun x hx => (hf x hx).1, ?_⟩
  refine List.eq_nil_iff_forall_not_mem.2 fun z hz => ?_
  obtain ⟨x, hx, hz⟩ := (Atom.mem_vars_bind q f z).1 hz
  rw [(hf x hx).2] at hz
  cases hz

theorem Orderly.output_mem (h : Orderly D s r) {head out : Atom ν} {name : String} {f : Native ν}
    {next : Atom ν → Set (Atom ν)} {args results : List (Atom ν)} (hf : r.resolve? head = some (name, f))
    (hnext : ∀ a ∈ args, ∀ v ∈ next a, v ∈ groundPart D)
    (hargs : List.Forall₂ (fun a b => next a = {b}) args results) (hout : (f results s).1 = .ok out) :
    out ∈ groundPart D := by
  obtain ⟨g, rfl, hg⟩ := h.code head name f hf
  refine hg results out ?_ hout
  clear hout
  induction hargs with
  | nil => simp
  | @cons a b args results hab _ ih =>
    refine List.forall_mem_cons.2 ⟨hnext a (by simp) b (by rw [hab]; rfl), ?_⟩
    exact ih fun a ha => hnext a (by simp [ha])

theorem values_of_mem {path : Set (Atom ν)} {a : Atom ν} (ha : a ∈ path) (depth : Nat) :
    values s r depth path a = {a} := by
  unfold values
  split
  · exact if_pos ha
  · rfl

theorem values_of_reducts {depth : Nat} {path : Set (Atom ν)} {head : Atom ν} {args : List (Atom ν)}
    (hpath : .expr (head :: args) ∉ path)
    (h : (reducts s r (values s r depth (insert (.expr (head :: args)) path)) head args).Nonempty) :
    values s r (depth + 1) path (.expr (head :: args)) =
      reducts s r (values s r depth (insert (.expr (head :: args)) path)) head args := by
  rw [values, if_neg hpath, if_pos h]

theorem values_of_no_reducts {depth : Nat} {path : Set (Atom ν)} {head : Atom ν} {args : List (Atom ν)}
    (hpath : .expr (head :: args) ∉ path)
    (h : reducts s r (values s r depth (insert (.expr (head :: args)) path)) head args = ∅) :
    values s r (depth + 1) path (.expr (head :: args)) =
      {.expr ((head :: args).map (settle (values s r depth (insert (.expr (head :: args)) path))))} := by
  rw [values, if_neg hpath, if_neg (by rw [h]; exact Set.not_nonempty_empty)]

omit [Scalar ν] in
theorem settle_eq {next : Atom ν → Set (Atom ν)} {a b : Atom ν} (h : next a = {b}) : settle next a = b := by
  have hex : ∃ b, next a = {b} := ⟨b, h⟩
  rw [settle, dif_pos hex]
  exact (Set.singleton_injective (hex.choose_spec.symm.trans h))

omit [Scalar ν] in
theorem settle_of_ne {next : Atom ν → Set (Atom ν)} {a : Atom ν} (h : ∀ b, next a ≠ {b}) :
    settle next a = a :=
  dif_neg fun ⟨b, hb⟩ => h b hb

omit [Scalar ν] in
theorem settle_mem {next : Atom ν → Set (Atom ν)} {T : Set (Atom ν)} {a : Atom ν} (ha : a ∈ T)
    (hnext : ∀ v ∈ next a, v ∈ T) : settle next a ∈ T := by
  by_cases h : ∃ b, next a = {b}
  · obtain ⟨b, hb⟩ := h
    rw [settle_eq hb]
    exact hnext b (by rw [hb]; rfl)
  · rwa [settle_of_ne (not_exists.1 h)]

theorem Orderly.reducts_mem (h : Orderly D s r) {next : Atom ν → Set (Atom ν)} {head : Atom ν}
    {args : List (Atom ν)} (ha : .expr (head :: args) ∈ groundPart D)
    (hnext : ∀ a ∈ groundPart D, ∀ v ∈ next a, v ∈ groundPart D) :
    ∀ v ∈ reducts s r next head args, v ∈ groundPart D := by
  rintro v ⟨-, hrule, hl, hv⟩
  · exact hnext _ (h.rule_mem hrule (by rwa [hl])) v hv
  · rename_i hf hargs hout hv
    have hargsD := (groundPart_expr h.ample).1 ha
    exact hnext _ (h.output_mem hf (fun a ha => hnext a (hargsD a (by simp [ha]))) hargs hout) v hv

/-- Values of atoms without variables have none either. -/
theorem Orderly.values_mem (h : Orderly D s r) (depth : Nat) : ∀ {path : Set (Atom ν)} {a v : Atom ν},
    a ∈ groundPart D → v ∈ values s r depth path a → v ∈ groundPart D := by
  induction depth with
  | zero =>
    rintro path a v ha rfl
    exact ha
  | succ depth ih =>
    intro path a v ha hv
    by_cases hpath : a ∈ path
    · rw [values_of_mem hpath] at hv
      rwa [hv]
    match a with
    | .expr (head :: args) =>
      have hnext : ∀ a ∈ groundPart D, ∀ v ∈ values s r depth (insert (.expr (head :: args)) path) a,
          v ∈ groundPart D := fun a ha v hv => ih ha hv
      rcases Set.eq_empty_or_nonempty
        (reducts s r (values s r depth (insert (.expr (head :: args)) path)) head args) with hempty | hsome
      · rw [values_of_no_reducts hpath hempty] at hv
        rw [hv, groundPart_expr h.ample]
        intro b hb
        obtain ⟨c, hc, rfl⟩ := List.mem_map.1 hb
        have hcD := (groundPart_expr h.ample).1 ha c hc
        exact settle_mem hcD (hnext c hcD)
      · rw [values_of_reducts hpath hsome] at hv
        exact h.reducts_mem ha hnext v hv
    | .expr [] | .symbol _ | .var _ | .int _ | .float _ | .str _ | .list _ | .function _ =>
      obtain rfl : v = _ := hv
      exact ha

end

/-! ## Tasks -/

/-- An atom to evaluate, with a number of levels, below the expressions of a path. -/
structure Task (ν : Type) where
  depth : Nat
  path : Set (Atom ν)
  atom : Atom ν

/-- An expression that is not on the path and has a level left is taken apart. -/
inductive Opens : Task ν → Nat → Set (Atom ν) → Atom ν → List (Atom ν) → Prop
  | intro {depth : Nat} {path : Set (Atom ν)} {head : Atom ν} {args : List (Atom ν)} :
      .expr (head :: args) ∉ path →
      Opens ⟨depth + 1, path, .expr (head :: args)⟩ depth (insert (.expr (head :: args)) path) head args

/-- One task calls for another one, one level deeper: for what a rule gives, for the arguments of native
code up to one without exactly one value, for what native code gives, or for the children of an
expression that does not reduce. -/
inductive Calls (s : Space ν) (r : Registry ν) (t : Task ν) : Task ν → Prop
  | rule {depth : Nat} {path : Set (Atom ν)} {head l q : Atom ν} {args : List (Atom ν)}
      {f : String → Atom ν} : Opens t depth path head args → Agrees s head args.length → s.Rule l q →
      l.bind f = .expr (head :: args) → Calls s r t ⟨depth, path, q.bind f⟩
  | argument {depth : Nat} {path : Set (Atom ν)} {head a : Atom ν} {p m : List (Atom ν)}
      {code : String × Native ν} : Opens t depth path head (p ++ a :: m) →
      Agrees s head (p ++ a :: m).length → r.resolve? head = some code →
      (∀ b ∈ p, ∃ c, values s r depth path b = {c}) → Calls s r t ⟨depth, path, a⟩
  | output {depth : Nat} {path : Set (Atom ν)} {head out : Atom ν} {args results : List (Atom ν)}
      {name : String} {f : Native ν} : Opens t depth path head args → Agrees s head args.length →
      r.resolve? head = some (name, f) →
      List.Forall₂ (fun a b => values s r depth path a = {b}) args results →
      (f results s).1 = .ok out → Calls s r t ⟨depth, path, out⟩
  | child {depth : Nat} {path : Set (Atom ν)} {head a : Atom ν} {args : List (Atom ν)} :
      Opens t depth path head args → reducts s r (values s r depth path) head args = ∅ →
      a ∈ head :: args → Calls s r t ⟨depth, path, a⟩

/-- A task asks the space for matches of a pattern. -/
inductive Asks (s : Space ν) (t : Task ν) : Atom ν → Prop
  | type {depth : Nat} {path : Set (Atom ν)} {head : Atom ν} {args : List (Atom ν)} {name : String} :
      Opens t depth path head args → declaredName? head = some name →
      Asks s t (.expr [.symbol ":", .symbol name, .var "__type"])
  | result {depth : Nat} {path : Set (Atom ν)} {head : Atom ν} {args : List (Atom ν)} :
      Opens t depth path head args → Agrees s head args.length →
      Asks s t (.expr [.symbol "=", .expr (head :: args), .var "__result"])
  | template {depth : Nat} {path : Set (Atom ν)} {head : Atom ν} {args : List (Atom ν)} :
      Opens t depth path head args → Agrees s head args.length →
      Asks s t (.expr [.symbol "=", .var "__pattern", .var "__template"])

/-- No limit is exceeded in any task that comes up: neither by the values of an atom, nor by the
candidates and matches of a query. -/
structure Roomy (e : Evaluator ν) (s : Space ν) (t : Task ν) : Prop where
  room : ∀ t', Relation.ReflTransGen (Calls s e.registry) t t' →
    (values s e.registry t'.depth t'.path t'.atom).encard ≤ (max e.config.maxResults 1 : Nat)
  queries : ∀ t' p, Relation.ReflTransGen (Calls s e.registry) t t' → Asks s t' p → s.Uncut p

theorem Roomy.call {e : Evaluator ν} {s : Space ν} {t t' : Task ν} (h : Roomy e s t)
    (ht : Calls s e.registry t t') : Roomy e s t' :=
  ⟨fun _ h' => h.room _ (.head ht h'), fun _ _ h' => h.queries _ _ (.head ht h')⟩

end Evaluator

end Atomspace
