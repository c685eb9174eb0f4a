import Atomspace.Double
import Atomspace.Proofs.Completeness
import Atomspace.Proofs.Writing
import Mathlib.Data.List.Permutation
/-!
# Addition of unary numbers

The rules `(= (add Z $n) $n)` and `(= (add (S $m) $n) (S (add $m $n)))` compute sums of the numbers
`Z`, `(S Z)`, `(S (S Z))` and so on. One level of evaluation undoes one `add` by a rule, another one
goes below the `S` that comes out of it (`finds_step_sum`, `finds_step_succ`), so a sum with `m`
on the left takes `2 * m + 1` levels (`eval_sum`). On the way the path only gets sums of which the
left number is greater, so no expression is taken for a loop.
-/

namespace Atomspace

namespace Evaluator

/-- An expression is evaluated in the same way whatever code there is for other heads. -/
theorem step_of_resolve? {ν : Type} [Scalar ν] {recur : Atom ν → Evaluating ν (List (Atom ν))}
    {e e' : Evaluator ν} {head : Atom ν} (args : List (Atom ν)) (hconfig : e.config = e'.config)
    (hresolve : e.registry.resolve? head = e'.registry.resolve? head) :
    step recur e (.expr (head :: args)) = step recur e' (.expr (head :: args)) := by
  simp only [step, reduce, applyNative, hconfig, hresolve]

end Evaluator

namespace Peano

open Evaluator

/-! ## Numbers and rules -/

/-- The successor of a number. -/
def succ (a : Atom Double) : Atom Double :=
  .expr [.symbol "S", a]

/-- The sum of two numbers, not evaluated. -/
def sum (a b : Atom Double) : Atom Double :=
  .expr [.symbol "add", a, b]

/-- A natural number as an atom. -/
def numeral : Nat → Atom Double
  | 0 => .symbol "Z"
  | k + 1 => succ (numeral k)

/-- What a rule makes of the sum of a natural number and an atom. -/
def unfolded : Nat → Atom Double → Atom Double
  | 0, b => b
  | k + 1, b => succ (sum (numeral k) b)

/-- `(= (add Z $n) $n)`. -/
def zeroRule : Atom Double :=
  .expr [.symbol "=", sum (.symbol "Z") (.var "n"), .var "n"]

/-- `(= (add (S $m) $n) (S (add $m $n)))`. -/
def succRule : Atom Double :=
  .expr [.symbol "=", sum (succ (.var "m")) (.var "n"), succ (sum (.var "m") (.var "n"))]

/-- A new space with some rules. -/
def loaded (rules : List (Atom Double)) : Space Double :=
  rules.foldl (fun s rule => (s.add rule).2) (Space.empty default)

/-- An evaluator with the standard code. -/
def evaluator : Evaluator Double where
  config := default
  registry := .standard

/-- An evaluator that differs in its code, but not for the symbols of the rules. -/
def bare : Evaluator Double where
  config := default
  registry := { functions := ∅, code := fun _ => none }

/-- The atoms that the rules are about. -/
abbrev plain : Set (Atom Double) := {a | Atom.Plain a}

theorem succ_mem {a : Atom Double} (ha : a ∈ groundPart plain) : succ a ∈ groundPart plain := by
  have hs : .symbol "S" ∈ groundPart plain := ⟨.symbol (by decide), rfl⟩
  exact (groundPart_expr Atom.ample_plain).2 (by simp [hs, ha])

theorem sum_mem {a b : Atom Double} (ha : a ∈ groundPart plain) (hb : b ∈ groundPart plain) :
    sum a b ∈ groundPart plain := by
  have hadd : .symbol "add" ∈ groundPart plain := ⟨.symbol (by decide), rfl⟩
  exact (groundPart_expr Atom.ample_plain).2 (by simp [hadd, ha, hb])

theorem numeral_mem (k : Nat) : numeral k ∈ groundPart plain := by
  induction k with
  | zero => exact ⟨.symbol (by decide), rfl⟩
  | succ k ih => exact succ_mem ih

theorem unfolded_mem (m : Nat) {b : Atom Double} (hb : b ∈ groundPart plain) :
    unfolded m b ∈ groundPart plain := by
  cases m with
  | zero => exact hb
  | succ k => exact succ_mem (sum_mem (numeral_mem k) hb)

theorem numeral_injective : Function.Injective numeral := by
  intro j
  induction j with
  | zero =>
    intro k h
    cases k with
    | zero => rfl
    | succ k => cases h
  | succ j ih =>
    intro k h
    cases k with
    | zero => cases h
    | succ k => exact congrArg (· + 1) (ih (by simpa [numeral, succ] using h))

/-! ## The space -/

/-- The rules of the space are those of addition, and nothing else gets in the way. -/
structure Adds (s : Space Double) : Prop where
  orderly : Orderly plain s bare.registry
  rule_iff : ∀ l q, s.Rule l q ↔ .expr [.symbol "=", l, q] = zeroRule ∨ .expr [.symbol "=", l, q] = succRule
  undeclared : ∀ name count, ¬ s.Declares name count
  uncut : ∀ {c : String}, c = "=" ∨ c = ":" → ∀ l, s.Uncut (.expr (.symbol c :: l))

section
variable {rules : List (Atom Double)}

theorem mem_loaded (hrules : rules.Perm [zeroRule, succRule]) {key : String} {a : Atom Double}
    (h : (loaded rules).atom? key = some a) :
    (∃ name ∈ Space.protectedNames, a = .symbol name) ∨ a = zeroRule ∨ a = succRule := by
  have hatoms : (loaded rules).slots.values.map Slot.atom = Space.protectedNames.map .symbol ++ rules := by
    obtain rfl | rfl := List.perm_pair.1 hrules <;> rfl
  obtain ⟨slot, hslot, rfl⟩ := Option.map_eq_some_iff.1 h
  have hmem := List.mem_map_of_mem (f := Slot.atom) (Table.mem_values_of_get? hslot)
  rw [hatoms, List.mem_append, hrules.mem_iff] at hmem
  simpa [eq_comm] using hmem

theorem trusts_loaded (hrules : rules.Perm [zeroRule, succRule]) {a : Atom Double}
    (h : (loaded rules).Trusts a) :
    (∃ name ∈ Space.protectedNames, a = .symbol name) ∨ a = zeroRule ∨ a = succRule := by
  obtain ⟨key, truth, hfact, -⟩ := h
  exact mem_loaded hrules (Space.atom?_of_fact? hfact)

theorem fact?_loaded (hrules : rules.Perm [zeroRule, succRule]) {rule : Atom Double}
    (hrule : rule = zeroRule ∨ rule = succRule) :
    (loaded rules).fact? rule.key = some (rule, .unknown) := by
  obtain rfl | rfl := List.perm_pair.1 hrules <;> obtain rfl | rfl := hrule <;> rfl

theorem config_loaded (rules : List (Atom Double)) : (loaded rules).config = default :=
  List.foldlRecOn (motive := fun s : Space Double => s.config = default) rules _ (Space.config_empty default)
    fun s hs rule _ => (s.config_add rule).trans hs

/-- What is loaded is reached by adding it. -/
theorem reachable_loaded (rules : List (Atom Double)) : (loaded rules).Reachable :=
  List.foldlRecOn (motive := Space.Reachable) rules _ ⟨default, .refl⟩
    fun _ hs rule _ => hs.step (.add _ rule)

theorem rule_loaded_iff (hrules : rules.Perm [zeroRule, succRule]) (l q : Atom Double) :
    (loaded rules).Rule l q ↔
      .expr [.symbol "=", l, q] = zeroRule ∨ .expr [.symbol "=", l, q] = succRule := by
  constructor
  · intro h
    rcases trusts_loaded hrules h with ⟨_, _, e⟩ | h
    · cases e
    · exact h
  · intro h
    refine ⟨_, .unknown, fact?_loaded hrules h, ?_⟩
    rw [config_loaded]
    decide +kernel

theorem undeclared_loaded (hrules : rules.Perm [zeroRule, succRule]) (name : String) (count : Nat) :
    ¬ (loaded rules).Declares name count := by
  rintro ⟨n, head, parts, htrust, -⟩
  rcases trusts_loaded hrules htrust with ⟨_, _, e⟩ | e | e
  · cases e
  · simp [zeroRule] at e
  · simp [succRule] at e

theorem within_loaded (hrules : rules.Perm [zeroRule, succRule]) : (loaded rules).Within plain := by
  intro key a ha
  have hnames : ∀ name ∈ Space.protectedNames, Atom.isName name = true := by decide
  rcases mem_loaded hrules ha with ⟨name, hname, rfl⟩ | rfl | rfl
  · exact .symbol (hnames name hname)
  · show Atom.Plain zeroRule
    decide
  · show Atom.Plain succRule
    decide

theorem orderly_loaded (hrules : rules.Perm [zeroRule, succRule]) :
    Orderly plain (loaded rules) bare.registry where
  ample := Atom.ample_plain
  colon := .symbol (by decide)
  names head hhead name hname := by
    cases hhead with
    | symbol h =>
      cases hname
      exact .symbol h
    | _ => cases hname
  reachable := reachable_loaded rules
  within := within_loaded hrules
  headed x l q h := by
    rcases trusts_loaded hrules h with ⟨_, _, e⟩ | e | e
    · cases e
    · simp [zeroRule] at e
    · simp [succRule] at e
  closed l q h := by
    rcases (rule_loaded_iff hrules l q).1 h with e | e <;> cases e <;> decide
  declared name j k h _ := absurd h (undeclared_loaded hrules name j)
  code head name f hf := by
    cases head <;> cases hf

theorem uncut_loaded (hrules : rules.Perm [zeroRule, succRule]) {c : String} (hc : c = "=" ∨ c = ":")
    (l : List (Atom Double)) : (loaded rules).Uncut (.expr (.symbol c :: l)) := by
  have hlength : ((loaded rules).candidates (.expr (.symbol c :: l))).length ≤ 2 := by
    show ((loaded rules).bucket c ++ (loaded rules).bucket Space.openHead).length ≤ 2
    obtain rfl | rfl := List.perm_pair.1 hrules <;> obtain rfl | rfl := hc <;> decide +kernel
  have hmatches := ((loaded rules).length_examineAll_le (.expr (.symbol c :: l)) _).trans hlength
  rw [Space.Uncut, config_loaded]
  exact ⟨hlength.trans (by decide), hmatches.trans (by decide)⟩

theorem adds_loaded (hrules : rules.Perm [zeroRule, succRule]) : Adds (loaded rules) :=
  ⟨orderly_loaded hrules, rule_loaded_iff hrules, undeclared_loaded hrules, uncut_loaded hrules⟩

end

/-! ## One level -/

section
variable {s : Space Double} {path : List String}
  {recur : Atom Double → Evaluating Double (List (Atom Double))} {next : Atom Double → Set (Atom Double)}

/-- A rule is used on a sum, and takes a successor out of it or gives its right number. -/
theorem Adds.rule_cases (hs : Adds s) {l q : Atom Double} {f : String → Atom Double} {name : String}
    {args : List (Atom Double)} (hrule : s.Rule l q) (hl : l.bind f = .expr (.symbol name :: args)) :
    name = "add" ∧ ((∃ b, args = [.symbol "Z", b] ∧ q.bind f = b) ∨
      ∃ a b, args = [succ a, b] ∧ q.bind f = succ (sum a b)) := by
  rcases (hs.rule_iff l q).1 hrule with e | e
  · cases e
    simp only [sum, Atom.bind_expr, List.map_cons, List.map_nil, Atom.bind_symbol, Atom.bind_var,
      Atom.expr.injEq, List.cons.injEq, Atom.symbol.injEq] at hl
    obtain ⟨rfl, rfl⟩ := hl
    exact ⟨rfl, .inl ⟨_, rfl, rfl⟩⟩
  · cases e
    simp only [sum, succ, Atom.bind_expr, List.map_cons, List.map_nil, Atom.bind_symbol, Atom.bind_var,
      Atom.expr.injEq, List.cons.injEq, Atom.symbol.injEq] at hl
    obtain ⟨rfl, rfl⟩ := hl
    refine ⟨rfl, .inr ⟨_, _, rfl, ?_⟩⟩
    simp [sum, succ]

/-- Only rules reduce an expression, since the symbols stand for no code. -/
theorem Adds.mem_reducts_iff (hs : Adds s) {name : String} {args : List (Atom Double)} {v : Atom Double} :
    v ∈ reducts s bare.registry next (.symbol name) args ↔
      ∃ l q f, s.Rule l q ∧ l.bind f = .expr (.symbol name :: args) ∧ v ∈ next (q.bind f) := by
  constructor
  · rintro ⟨-, hreduct⟩
    cases hreduct with
    | rule hrule hl hv => exact ⟨_, _, _, hrule, hl, hv⟩
    | native hf => cases hf
  · rintro ⟨l, q, f, hrule, hl, hv⟩
    exact ⟨fun name k _ h => absurd h (hs.undeclared name k), .rule hrule hl hv⟩

theorem Adds.unfolds (hs : Adds s) {name : String} {args : List (Atom Double)}
    (hground : .expr (.symbol name :: args) ∈ groundPart plain)
    (hvalues : ∀ a ∈ groundPart plain, ∀ v ∈ next a, v ∈ groundPart plain)
    (hroom : (reducts s bare.registry next (.symbol name) args).Subsingleton)
    (hrule : ∀ l q f, s.Rule l q → l.bind f = .expr (.symbol name :: args) →
      Finds s path recur (q.bind f) (next (q.bind f)))
    (hchild : reducts s bare.registry next (.symbol name) args = ∅ →
      ∀ a ∈ Atom.symbol name :: args, Finds s path recur a (next a)) :
    Unfolds plain s bare path recur next (.symbol name) args where
  ground := hground
  values := hvalues
  room := (Set.encard_le_one_iff_subsingleton.2 hroom).trans (by exact_mod_cast le_max_right _ 1)
  type _ _ := hs.uncut (.inr rfl) _
  result _ := hs.uncut (.inl rfl) _
  template _ := hs.uncut (.inl rfl) _
  rule _ := hrule
  argument _ code _ _ _ h := by cases h
  output _ name f _ _ h := by cases h
  child := hchild

/-- There is no standard code for the symbols of the rules, so other code would do as well. -/
theorem finds_evaluator {name : String} {args : List (Atom Double)} {T : Set (Atom Double)}
    (hname : evaluator.registry.resolve? (.symbol name) = none)
    (h : Finds s path (step recur bare) (.expr (.symbol name :: args)) T) :
    Finds s path (step recur evaluator) (.expr (.symbol name :: args)) T := by
  intro e he
  have hstep : step recur evaluator _ = step recur bare _ := step_of_resolve? args rfl hname
  rw [hstep]
  exact h e he

/-- A successor is evaluated below the `S`. -/
theorem Adds.finds_step_succ (hs : Adds s) {a v : Atom Double} (ha : a ∈ groundPart plain)
    (hv : v ∈ groundPart plain) (hne : a ≠ .symbol "S") (hpath : (succ a).key ∉ path)
    (hsymbol : Finds s ((succ a).key :: path) recur (.symbol "S") {.symbol "S"})
    (hrec : Finds s ((succ a).key :: path) recur a {v}) :
    Finds s path (step recur evaluator) (succ a) {succ v} := by
  classical
  let next : Atom Double → Set (Atom Double) := Function.update (fun b => {b}) a {v}
  have hnexta : next a = {v} := Function.update_self ..
  have hnext {b : Atom Double} (hb : b ≠ a) : next b = {b} := Function.update_of_ne hb ..
  have hnone : reducts s bare.registry next (.symbol "S") [a] = ∅ := by
    refine Set.eq_empty_of_forall_notMem fun w hw => ?_
    obtain ⟨l, q, f, hrule, hl, -⟩ := hs.mem_reducts_iff.1 hw
    exact absurd (hs.rule_cases hrule hl).1 (by decide)
  have hunfolds : Unfolds plain s bare ((succ a).key :: path) recur next (.symbol "S") [a] := by
    refine hs.unfolds ?_ ?_ (hnone ▸ Set.subsingleton_empty) ?_ ?_
    · exact succ_mem ha
    · intro b hb w hw
      by_cases hba : b = a
      · subst hba
        rw [hnexta] at hw
        exact hw ▸ hv
      · rw [hnext hba] at hw
        exact hw ▸ hb
    · intro l q f hrule hl
      exact absurd (hs.rule_cases hrule hl).1 (by decide)
    · refine fun _ => List.forall_mem_cons.2 ⟨?_, List.forall_mem_singleton.2 ?_⟩
      · rw [hnext hne.symm]
        exact hsymbol
      · rw [hnexta]
        exact hrec
  refine finds_evaluator rfl (hunfolds.finds_step hs.orderly hpath (fun h => absurd hnone h.ne_empty) ?_)
  intro _
  rw [List.map_cons, List.map_cons, List.map_nil, settle_eq (hnext hne.symm), settle_eq hnexta]
  rfl

theorem Adds.bind_eq_unfolded (hs : Adds s) {m : Nat} {b l q : Atom Double} {f : String → Atom Double}
    (hrule : s.Rule l q) (hl : l.bind f = sum (numeral m) b) : q.bind f = unfolded m b := by
  rcases (hs.rule_cases hrule hl).2 with ⟨c, hargs, hq⟩ | ⟨a, c, hargs, hq⟩
  · cases m with
    | zero =>
      cases hargs
      exact hq
    | succ k => cases hargs
  · cases m with
    | zero => cases hargs
    | succ k =>
      cases hargs
      exact hq

theorem Adds.exists_rule (hs : Adds s) (m : Nat) (b : Atom Double) :
    ∃ l q f, s.Rule l q ∧ l.bind f = sum (numeral m) b := by
  cases m with
  | zero => exact ⟨_, _, fun _ => b, (hs.rule_iff _ _).2 (.inl rfl), by simp [sum, numeral]⟩
  | succ k =>
    refine ⟨_, _, fun x => if x = "m" then numeral k else b, (hs.rule_iff _ _).2 (.inr rfl), ?_⟩
    simp [sum, succ, numeral]

/-- A sum has the value that a rule gives. -/
theorem Adds.finds_step_sum (hs : Adds s) {m n : Nat} {v : Atom Double} (hv : v ∈ groundPart plain)
    (hpath : (sum (numeral m) (numeral n)).key ∉ path)
    (hrec : Finds s ((sum (numeral m) (numeral n)).key :: path) recur (unfolded m (numeral n)) {v}) :
    Finds s path (step recur evaluator) (sum (numeral m) (numeral n)) {v} := by
  have hreducts : reducts s bare.registry (fun _ => {v}) (.symbol "add") [numeral m, numeral n] = {v} := by
    ext w
    rw [hs.mem_reducts_iff]
    constructor
    · rintro ⟨l, q, f, -, -, hw⟩
      exact hw
    · intro hw
      obtain ⟨l, q, f, hrule, hl⟩ := hs.exists_rule m (numeral n)
      exact ⟨l, q, f, hrule, hl, hw⟩
  have hsome : reducts s bare.registry (fun _ => {v}) (.symbol "add") [numeral m, numeral n] ≠ ∅ := by
    rw [hreducts]
    exact Set.singleton_ne_empty v
  have hunfolds : Unfolds plain s bare ((sum (numeral m) (numeral n)).key :: path) recur (fun _ => {v})
      (.symbol "add") [numeral m, numeral n] := by
    have hground := sum_mem (numeral_mem m) (numeral_mem n)
    refine hs.unfolds hground (fun _ _ w hw => hw ▸ hv) ?_ ?_ fun hnone => absurd hnone hsome
    · rw [hreducts]
      exact Set.subsingleton_singleton
    intro l q f hrule hl
    rw [hs.bind_eq_unfolded hrule hl]
    exact hrec
  exact finds_evaluator rfl (hunfolds.finds_step hs.orderly hpath (fun _ => hreducts.symm)
    fun hnone => absurd hnone hsome)

end

/-! ## All levels -/

section
variable {s : Space Double}

theorem finds_symbol (s : Space Double) (path : List String) (depth : Nat) (name : String) :
    Finds s path (evaluator.evalPath depth) (.symbol name) {.symbol name} := by
  cases depth <;> exact fun _ _ => finds_self rfl

theorem numeral_ne_s (k : Nat) : numeral k ≠ .symbol "S" := by
  cases k with
  | zero => exact fun h => absurd (Atom.symbol.inj h) (by decide)
  | succ k => nofun

/-- A number is its own value. -/
theorem Adds.finds_numeral (hs : Adds s) (k depth : Nat) (path : List String) :
    Finds s path (evaluator.evalPath depth) (numeral k) {numeral k} := by
  induction depth generalizing k path with
  | zero => exact fun _ _ => finds_self rfl
  | succ depth ih =>
    cases k with
    | zero => exact finds_symbol s path _ "Z"
    | succ k =>
      by_cases hpath : (numeral (k + 1)).key ∈ path
      · exact finds_step_of_mem evaluator hpath
      · exact hs.finds_step_succ (numeral_mem k) (numeral_mem k) (numeral_ne_s k) hpath
          (finds_symbol s _ depth "S") (ih k _)

/-- The path only has sums with `n` of which the left number is greater than `m`, and what rules made of
them. -/
def Above (m n : Nat) (path : List String) : Prop :=
  ∀ key ∈ path, ∃ j > m, key = (sum (numeral j) (numeral n)).key ∨ key = (unfolded j (numeral n)).key

theorem eq_of_key {a b : Atom Double} (ha : a ∈ groundPart plain) (hb : b ∈ groundPart plain)
    (h : a.key = b.key) : a = b :=
  Atom.ample_plain.eq_of_key ha.1 hb.1 h

theorem sum_ne_unfolded {j : Nat} (hj : 0 < j) (a b c : Atom Double) : sum a b ≠ unfolded j c := by
  cases j with
  | zero => exact absurd hj (Nat.lt_irrefl 0)
  | succ k => simp [sum, unfolded, succ]

theorem Above.sum_notMem {m n : Nat} {path : List String} (h : Above m n path) :
    (sum (numeral m) (numeral n)).key ∉ path := by
  have hsum := sum_mem (numeral_mem m) (numeral_mem n)
  intro hmem
  obtain ⟨j, hj, e | e⟩ := h _ hmem
  · have hsame := eq_of_key hsum (sum_mem (numeral_mem j) (numeral_mem n)) e
    simp only [sum, Atom.expr.injEq, List.cons.injEq, true_and, and_true] at hsame
    exact absurd (numeral_injective hsame) hj.ne
  · exact sum_ne_unfolded (by omega) _ _ _ (eq_of_key hsum (unfolded_mem j (numeral_mem n)) e)

theorem Above.unfolded_notMem {m n : Nat} {path : List String} (h : Above (m + 1) n path) :
    (unfolded (m + 1) (numeral n)).key ∉ (sum (numeral (m + 1)) (numeral n)).key :: path := by
  have hunfolded := unfolded_mem (m + 1) (numeral_mem n)
  intro hmem
  rcases List.mem_cons.1 hmem with e | hmem
  · exact sum_ne_unfolded (by omega) _ _ _
      (eq_of_key hunfolded (sum_mem (numeral_mem _) (numeral_mem n)) e).symm
  obtain ⟨j, hj, e | e⟩ := h _ hmem
  · exact sum_ne_unfolded (by omega) _ _ _
      (eq_of_key hunfolded (sum_mem (numeral_mem j) (numeral_mem n)) e).symm
  · have hsame := eq_of_key hunfolded (unfolded_mem j (numeral_mem n)) e
    obtain ⟨k, rfl⟩ : ∃ k, j = k + 1 := ⟨j - 1, by omega⟩
    simp only [unfolded, succ, sum, Atom.expr.injEq, List.cons.injEq, true_and, and_true] at hsame
    have hmk := numeral_injective hsame
    omega

theorem Above.step {m n : Nat} {path : List String} (h : Above (m + 1) n path) :
    Above m n ((unfolded (m + 1) (numeral n)).key :: (sum (numeral (m + 1)) (numeral n)).key :: path) := by
  refine List.forall_mem_cons.2 ⟨⟨m + 1, by omega, .inr rfl⟩, List.forall_mem_cons.2
    ⟨⟨m + 1, by omega, .inl rfl⟩, fun key hkey => ?_⟩⟩
  obtain ⟨j, hj, e⟩ := h key hkey
  exact ⟨j, by omega, e⟩

/-- A sum is computed in twice as many levels as its left number, and one. -/
theorem Adds.finds_sum (hs : Adds s) (m n : Nat) {depth : Nat} {path : List String}
    (hdepth : 2 * m + 1 ≤ depth) (hpath : Above m n path) :
    Finds s path (evaluator.evalPath depth) (sum (numeral m) (numeral n)) {numeral (m + n)} := by
  induction m generalizing depth path with
  | zero =>
    obtain ⟨d, rfl⟩ : ∃ d, depth = d + 1 := ⟨depth - 1, by omega⟩
    rw [Nat.zero_add]
    exact hs.finds_step_sum (numeral_mem n) hpath.sum_notMem (hs.finds_numeral n d _)
  | succ m ih =>
    obtain ⟨d, rfl⟩ : ∃ d, depth = d + 2 := ⟨depth - 2, by omega⟩
    have hinner : Finds s _ (evaluator.evalPath d) _ _ := ih (by omega) hpath.step
    rw [Nat.succ_add]
    refine hs.finds_step_sum (numeral_mem _) hpath.sum_notMem ?_
    exact hs.finds_step_succ (sum_mem (numeral_mem m) (numeral_mem n)) (numeral_mem _) (by simp [sum])
      hpath.unfolded_notMem (finds_symbol s _ d "S") hinner

end

/-- In a new space with the two rules, in whatever order they were added, a sum evaluates to exactly
one atom, the number that is the sum. -/
theorem eval_sum {rules : List (Atom Double)} (hrules : rules.Perm [zeroRule, succRule]) (m n : Nat)
    {depth : Nat} (hdepth : 2 * m + 1 ≤ depth) :
    (evaluator.eval (sum (numeral m) (numeral n)) depth (loaded rules)).1 = [numeral (m + n)] := by
  have hfinds : Finds (loaded rules) [] _ _ _ := (adds_loaded hrules).finds_sum m n hdepth nofun
  obtain ⟨hnodup, hvalues⟩ := (hfinds { space := loaded rules } ⟨.refl _, rfl⟩).answer
  exact (eq_singleton_iff_of_nodup hnodup hvalues _).1 rfl

/-- Two and one make three, in five levels. -/
theorem eval_sum_three : (2 * 2 + 1 ≤ 5) ∧
    (evaluator.eval (sum (numeral 2) (numeral 1)) 5 (loaded [zeroRule, succRule])).1 = [numeral 3] :=
  ⟨by decide, eval_sum (.refl _) 2 1 (by decide)⟩

end Peano

end Atomspace
