import Atomspace.Proofs.Copies
import Atomspace.Proofs.Reachable
/-!
# Derivations

A space that an evaluation works on changes as it goes: queries read it, and native code may use it
in any way. `Derives` relates an atom in one space to an atom in a later one. Its steps are to apply
a rule that the space then holds, to run native code, and to derive within a child.

Rules are applied in copies with variables of their own. The number of a copy is one that the space
hands out on the way (`Drawn`), so it comes up in nothing that is older (`Older`).
-/

namespace Atomspace

variable {ν : Type}

namespace Atom

/-- The variables of the patterns that evaluation asks for. -/
def internalNames : List String := ["__result", "__pattern", "__template", "__type"]

/-- A variable that is not internal, and with no number in its name but those below a bound. -/
def Older (k : Nat) (x : String) : Prop :=
  x ∉ internalNames ∧ ∀ y j, x = numbered y j → j < k

theorem not_mem_internalNames_numbered (x : String) (n : Nat) : numbered x n ∉ internalNames := by
  intro h
  have hsharp : ∀ y ∈ internalNames, '#' ∉ y.toList := by decide
  exact hsharp _ h (mem_toList_numbered x n)

theorem Older.mono {j k : Nat} {x : String} (h : Older j x) (hjk : j ≤ k) : Older k x :=
  ⟨h.1, fun y i e => Nat.lt_of_lt_of_le (h.2 y i e) hjk⟩

theorem older_numbered {n k : Nat} (x : String) (h : n < k) : Older k (numbered x n) := by
  refine ⟨not_mem_internalNames_numbered x n, fun y j e => ?_⟩
  rwa [← (numbered_eq_iff.1 e).2]

theorem older_of_unnumbered {x : String} (hx : x ∉ internalNames) (hsharp : '#' ∉ x.toList) (k : Nat) :
    Older k x := by
  refine ⟨hx, fun y j e => ?_⟩
  rw [e] at hsharp
  exact absurd (mem_toList_numbered y j) hsharp

theorem hasVars_iff_ne_nil {a : Atom ν} : a.hasVars = true ↔ a.vars ≠ [] := by
  rw [ne_eq, ← hasVars_eq_false_iff, Bool.not_eq_false]

theorem hasVars_of_mem_vars {a : Atom ν} {x : String} (h : x ∈ a.vars) : a.hasVars = true :=
  hasVars_iff_ne_nil.2 (List.ne_nil_of_mem h)

theorem mem_vars_rename {a : Atom ν} {n : Nat} {z : String} (h : z ∈ (a.rename n).vars) :
    ∃ x ∈ a.vars, z = numbered x n := by
  obtain ⟨x, hx, hz⟩ := (mem_vars_bind a _ z).1 h
  exact ⟨x, hx, List.mem_singleton.1 hz⟩

theorem internal_not_mem_vars_rename {x : String} (hx : x ∈ internalNames) (a : Atom ν) (n : Nat) :
    x ∉ (a.rename n).vars := by
  intro h
  obtain ⟨y, -, rfl⟩ := mem_vars_rename h
  exact not_mem_internalNames_numbered y n hx

theorem vars_rename_eq_nil {a : Atom ν} {n : Nat} : (a.rename n).vars = [] ↔ a.vars = [] := by
  constructor
  · intro h
    rw [List.eq_nil_iff_forall_not_mem] at h ⊢
    intro x hx
    exact h _ ((mem_vars_bind a _ _).2 ⟨x, hx, List.mem_singleton.2 rfl⟩)
  · intro h
    rw [show a.rename n = a from bind_of_ground h _, h]

theorem vars_expr_of_mem {l : List (Atom ν)} {a : Atom ν} {x : String} (ha : a ∈ l) (hx : x ∈ a.vars) :
    x ∈ (expr l).vars := by
  rw [vars_expr]
  exact List.mem_flatMap.2 ⟨a, ha, hx⟩

variable [Scalar ν]

/-- A faithful set in which the patterns of evaluation and renamed variables can be built. -/
structure Ample (D : Set (Atom ν)) : Prop where
  faithful : Faithful D
  expr {l : List (Atom ν)} : (∀ a ∈ l, a ∈ D) → Atom.expr l ∈ D
  renamed (x : String) (n : Nat) : Atom.var x ∈ D → Atom.var (numbered x n) ∈ D
  equals : Atom.symbol "=" ∈ D
  internal : ∀ x ∈ internalNames, Atom.var x ∈ D

theorem ample_plain : Ample {a : Atom ν | Plain a} where
  faithful := faithful_plain
  expr := .expr
  renamed _ n h := h.var_numbered n
  equals := .symbol (by decide)
  internal x hx := .var (List.all_eq_true.1 (by decide : internalNames.all isWord = true) x hx)

/-- The atoms of a faithful set with variables of some sort only are a faithful set. -/
theorem Faithful.restrict {D : Set (Atom ν)} (hD : Faithful D) (V : String → Prop) :
    Faithful {a | a ∈ D ∧ ∀ x ∈ a.vars, V x} where
  part h ha := ⟨hD.part h.1 ha, fun x hx => h.2 x (vars_expr_of_mem ha hx)⟩
  bind {a f} ha hf := by
    refine ⟨hD.bind ha.1 fun x hx => (hf x hx).1, fun z hz => ?_⟩
    obtain ⟨x, hx, hz⟩ := (mem_vars_bind a f z).1 hz
    exact (hf x hx).2 z hz
  eq_of_beq ha hb := hD.eq_of_beq ha.1 hb.1

variable {D : Set (Atom ν)}

theorem Ample.rename (hD : Ample D) {a : Atom ν} (ha : a ∈ D) (n : Nat) : a.rename n ∈ D :=
  hD.faithful.bind ha fun x hx => hD.renamed x n (hD.faithful.var_mem ha hx)

theorem Ample.copy (hD : Ample D) {a : Atom ν} (ha : a ∈ D) (h : Atom ν) (n : Nat) : copy h n a ∈ D := by
  refine hD.faithful.bind ha fun x hx => ?_
  rcases copyVar_cases h n x with ⟨-, hcopy⟩ | ⟨-, hcopy⟩ <;> rw [hcopy]
  · exact hD.equals
  · exact hD.renamed x n (hD.faithful.var_mem ha hx)

/-- A triple with the head `=` is in the set if its sides are. -/
theorem Ample.equation (hD : Ample D) {p q : Atom ν} (hp : p ∈ D) (hq : q ∈ D) :
    Atom.expr [.symbol "=", p, q] ∈ D :=
  hD.expr (by simp [hD.equals, hp, hq])

omit [Scalar ν] in
theorem mem_vars_equation {p q : Atom ν} {x : String} :
    x ∈ (Atom.expr [.symbol "=", p, q]).vars ↔ x ∈ p.vars ∨ x ∈ q.vars := by
  simp [show (symbol "=" : Atom ν).vars = [] from rfl]

omit [Scalar ν] in
theorem mem_vars_copy {h a : Atom ν} {n : Nat} {z : String} (hz : z ∈ (copy h n a).vars) :
    ∃ x ∈ a.vars, z = numbered x n := by
  obtain ⟨x, hx, hz⟩ := (mem_vars_bind a _ z).1 hz
  rcases copyVar_cases h n x with ⟨-, hcopy⟩ | ⟨-, hcopy⟩ <;> rw [hcopy] at hz
  · cases hz
  · exact ⟨x, hx, List.mem_singleton.1 hz⟩

end Atom

variable [Scalar ν]

namespace Space

/-! ## The course of an evaluation -/

/-- A query, or a call of code from the registry. -/
inductive Access (r : Registry ν) : Space ν → Space ν → Prop
  | query (s : Space ν) (pattern : Atom ν) : Access r s (s.query pattern).2
  | call {head : Atom ν} {name : String} {f : Native ν} (h : r.resolve? head = some (name, f))
      (args : List (Atom ν)) (s : Space ν) : Access r s (f args s).2

/-- Any number of queries and calls. -/
abbrev Evolves (r : Registry ν) : Space ν → Space ν → Prop := Relation.ReflTransGen (Access r)

/-- The number was handed out on the way from the one space to the other. -/
def Drawn (s t : Space ν) (n : Nat) : Prop := s.renamings ≤ n ∧ n < t.renamings

/-- A rule of enough confidence turns an atom into another one: its right side, under a most general
unifier of its left side and the atom. A rule is a stored expression of three whose head is `=`, or a
variable that then stands for `=`. `n` is the number of the copy that is applied. -/
inductive Rewrites (s t : Space ν) (n : Nat) (a : Atom ν) : Atom ν → Prop
  | intro {key : String} {h l r : Atom ν} {truth : Truth ν} {σ : String → Atom ν}
      (held : s.fact? key = some (.expr [h, l, r], truth))
      (trusted : Scalar.lt truth.confidence s.config.minConfidence = false)
      (head : h.IsRuleHead)
      (fresh : ∀ x ∈ (Atom.expr [h, l, r]).vars, Drawn s t n ∧ Atom.numbered x n ∉ a.vars)
      (general : Atom.MostGeneral σ (Atom.copy h n l) a) :
      Rewrites s t n a ((Atom.copy h n r).bind σ)

/-- An atom in a space is derived from an atom in an earlier one. -/
inductive Derives (r : Registry ν) : Space ν → Atom ν → Space ν → Atom ν → Prop
  | wait {s t : Space ν} {a : Atom ν} : Evolves r s t → Derives r s a t a
  | rule {s t : Space ν} {n : Nat} {a b : Atom ν} : Rewrites s t n a b → Evolves r s t → Derives r s a t b
  | native {s t : Space ν} {head b : Atom ν} {name : String} {f : Native ν} {args : List (Atom ν)} :
      r.resolve? head = some (name, f) → f args s = (.ok b, t) → Derives r s (.expr (head :: args)) t b
  | child {s t : Space ν} {a b : Atom ν} (l m : List (Atom ν)) :
      Derives r s a t b → Derives r s (.expr (l ++ a :: m)) t (.expr (l ++ b :: m))
  | trans {s t u : Space ν} {a b c : Atom ν} : Derives r s a t b → Derives r t b u c → Derives r s a u c

/-! ## Numbers of renamings -/

omit [Scalar ν] in
theorem renamings_file (s : Space ν) (head key : String) : (s.file head key).renamings = s.renamings := by
  unfold file
  simp only
  split <;> rfl

theorem renamings_store (s : Space ν) (a : Atom ν) : (s.store a).renamings = s.renamings := by
  unfold store
  simp only
  split
  · exact s.renamings_file _ _
  · rfl

theorem renamings_add (s : Space ν) (a : Atom ν) : (s.add a).2.renamings = s.renamings := by
  show (if s.contains a.key then s else s.store a).renamings = _
  split
  · rfl
  · exact s.renamings_store a

theorem renamings_update (s : Space ν) (a : Atom ν) (f : Valuation ν → Valuation ν) :
    (s.update a f).2.renamings = s.renamings := by
  unfold update
  split <;> rfl

theorem renamings_drop (s : Space ν) (key : String) : (s.drop key).renamings = s.renamings := by
  unfold drop
  split
  · rfl
  · simp only
    split <;> rfl

theorem renamings_remove (s : Space ν) (h : Atom.Handle) : (s.remove h).2.renamings = s.renamings := by
  unfold remove
  split
  · rfl
  · exact s.renamings_drop h.key

theorem renamings_forget (s : Space ν) : s.forget.2.renamings = s.renamings :=
  forget_of_drop (P := fun t => t.renamings = s.renamings)
    (fun t key _ _ _ h => (t.renamings_drop key).trans h) rfl

/-- No operation takes a number of a renaming back. -/
theorem Operation.renamings_le {c : Terms ν} {s t : Space ν} (h : Operation c s t) :
    s.renamings ≤ t.renamings := by
  cases h with
  | add a => exact (s.renamings_add a).ge
  | assert a ht => exact ((renamings_update ..).trans (s.renamings_add a)).ge
  | get key => exact Nat.le_refl _
  | update a hf => exact (s.renamings_update a _).ge
  | boost a amount => exact Nat.le_refl _
  | remove hh => exact (s.renamings_remove _).ge
  | query pattern => exact (s.read_query pattern).renamings
  | forget => exact s.renamings_forget.ge

theorem Steps.renamings_le {s t : Space ν} (h : Steps s t) : s.renamings ≤ t.renamings := by
  induction h with
  | refl => exact Nat.le_refl _
  | tail _ h ih => exact Nat.le_trans ih h.renamings_le

/-! ## Spaces within a set -/

/-- All stored atoms are in the set. -/
def Within (s : Space ν) (D : Set (Atom ν)) : Prop := ∀ key a, s.atom? key = some a → a ∈ D

omit [Scalar ν] in
theorem Read.within {s t : Space ν} {D : Set (Atom ν)} (h : Read s t) (hs : s.Within D) : t.Within D := by
  intro key a ha
  rw [h.revalued.atom? key] at ha
  exact hs key a ha

omit [Scalar ν] in
theorem Within.fact {s : Space ν} {D : Set (Atom ν)} (hs : s.Within D) {key : String} {a : Atom ν}
    {truth : Truth ν} (h : s.fact? key = some (a, truth)) : a ∈ D :=
  hs key a (atom?_of_fact? h)

/-! ## What a query found -/

/-- The match is of an atom that is stored with enough confidence, and its bindings come from unifying
the pattern with a copy. -/
inductive Found (s t : Space ν) (pattern : Atom ν) (m : Match ν) : Prop
  | intro {key : String} {truth : Truth ν} {n : Nat}
      (held : s.fact? key = some (m.atom, truth))
      (trusted : Scalar.lt truth.confidence s.config.minConfidence = false)
      (fits : fits pattern m.atom = true)
      (drawn : m.atom.hasVars = true → Drawn s t n)
      (unified : unify pattern (m.atom.rename n) ∅ = some m.bindings)

theorem Found.mono {s t s' t' : Space ν} {pattern : Atom ν} {m : Match ν} (h : Found s' t pattern m)
    (hs : Read s s') (ht : t.renamings ≤ t'.renamings) : Found s t' pattern m := by
  obtain ⟨held, trusted, fits, drawn, unified⟩ := h
  rw [hs.fact?] at held
  rw [hs.config] at trusted
  refine .intro held trusted fits (fun h => ?_) unified
  exact ⟨Nat.le_trans hs.renamings (drawn h).1, Nat.lt_of_lt_of_le (drawn h).2 ht⟩

/-- What is found for an expression is an expression. -/
theorem Found.exists_expr {s t : Space ν} {p : List (Atom ν)} {m : Match ν} (h : Found s t (.expr p) m) :
    ∃ l, m.atom = .expr l := by
  obtain ⟨a, b, score⟩ := m
  obtain ⟨-, -, fits, -, -⟩ := h
  cases a with
  | expr l => exact ⟨l, rfl⟩
  | _ => cases fits

omit [Scalar ν] in
theorem drawn_refresh {s : Space ν} {a : Atom ν} (h : a.hasVars = true) :
    Drawn s (s.refresh a).2 s.renamings := by
  unfold refresh
  rw [if_pos h]
  exact ⟨Nat.le_refl _, Nat.lt_succ_self _⟩

theorem renamings_examine {s : Space ν} {key : String} {a : Atom ν} {truth : Truth ν}
    (h : s.fact? key = some (a, truth)) {pattern : Atom ν}
    (hkeep : (Scalar.lt truth.confidence s.config.minConfidence || !fits pattern a) = false) :
    (s.examine pattern key).2.renamings = (s.refresh a).2.renamings := by
  obtain ⟨slot, hslot, e⟩ := Option.map_eq_some_iff.1 h
  obtain ⟨rfl, rfl⟩ := Prod.mk.inj e
  unfold examine
  simp only [hslot, hkeep, Bool.false_eq_true, if_false]
  split <;> rfl

theorem found_examine {s : Space ν} {pattern : Atom ν} {key : String} {m : Match ν}
    (hm : (s.examine pattern key).1 = some m) : Found s (s.examine pattern key).2 pattern m := by
  cases hfact : s.fact? key with
  | none =>
    rw [examine_of_free hfact] at hm
    cases hm
  | some fact =>
    obtain ⟨a, truth⟩ := fact
    rw [examine_eq hfact] at hm
    split at hm
    · cases hm
    · rename_i hkeep
      rw [Bool.not_eq_true] at hkeep
      obtain ⟨b, hb, rfl⟩ := Option.map_eq_some_iff.1 hm
      rw [refresh_fst] at hb
      have hrenamings := renamings_examine hfact hkeep
      rw [Bool.or_eq_false_iff, Bool.not_eq_false'] at hkeep
      refine .intro hfact hkeep.1 hkeep.2 (fun hvars => ?_) hb
      rw [Drawn, hrenamings]
      exact drawn_refresh hvars

theorem found_examineAll {s : Space ν} {pattern : Atom ν} {keys : List String} {m : Match ν}
    (hm : m ∈ (s.examineAll pattern keys).1) : Found s (s.examineAll pattern keys).2 pattern m := by
  induction keys generalizing s with
  | nil => cases hm
  | cons key keys ih =>
    have hread := s.read_examine pattern key
    rcases List.mem_append.1 hm with hm | hm
    · exact (found_examine (Option.mem_toList.1 hm)).mono (.refl s) (read_examineAll _ _ _).renamings
    · exact (ih hm).mono hread (Nat.le_refl _)

/-- Whatever the limits cut off, a query answers with what it found. -/
theorem found_query {s : Space ν} {pattern : Atom ν} {m : Match ν} (hm : m ∈ (s.query pattern).1) :
    Found s (s.query pattern).2 pattern m :=
  found_examineAll (List.mem_mergeSort.1 (List.mem_of_mem_take hm))

end Space

end Atomspace
