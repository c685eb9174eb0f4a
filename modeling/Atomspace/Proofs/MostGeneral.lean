import Atomspace.Proofs.Halting
import Atomspace.Double
/-!
# Most general unifiers

What a run returns (`run_spec`): bindings with exactly the solutions it started with, or nothing
when there are none. The bindings are acyclic, so they are a solution themselves, and every other
solution is an instance of them.
-/

namespace Atomspace

variable {ν : Type} [Scalar ν] {D : Set (Atom ν)}

namespace Unifier

/-- A run that halts returns bindings with the solutions of the unification, or none if there is no
solution. -/
theorem run_spec (hD : Atom.Faithful D) {u : Unifier ν} (hu : u.Clean D) (h : u.Halts) :
    (∀ b, u.run = some b → b.Acyclic ∧ b.Within D ∧ ∀ s, b.Holds s ↔ u.Solved s) ∧
      (u.run = none → ∀ s, ¬ u.Solved s) := by
  -- every step keeps the solutions, so the last one decides
  induction h with
  | @done u hp =>
    rw [run_of_done hp]
    refine ⟨?_, fun h => by cases h⟩
    rintro b h
    obtain rfl := Option.some.inj h
    exact ⟨hu.acyclic, hu.within, fun s => by simp [Solved, hp]⟩
  | @fail u h =>
    have hp : u.pending ≠ [] := fun hp => by rw [step_of_done hp] at h; cases h
    rw [run_of_fail hp h]
    exact ⟨fun b hb => (by cases hb), fun _ => unsolvable_step hu h⟩
  | @next u w h _ ih =>
    by_cases hp : u.pending = []
    · rw [step_of_done hp] at h
      cases h
      exact ih hu
    obtain ⟨hw, hs⟩ := solved_step hD hu hp h
    rw [run_of_step hp h]
    simpa only [hs] using ih hw

omit [Scalar ν] in
theorem clean_start {l r : Atom ν} {c : Bindings ν} (hl : l ∈ D) (hr : r ∈ D) (hc : c.Acyclic)
    (hcD : c.Within D) : (start l r c).Clean D :=
  ⟨hc, hcD, List.forall_mem_singleton.2 ⟨hl, hr⟩⟩

omit [Scalar ν] in
theorem solved_start {l r : Atom ν} {c : Bindings ν} {s : String → Atom ν} :
    (start l r c).Solved s ↔ l.bind s = r.bind s ∧ c.Holds s := by
  simp [Solved, start, and_comm]

end Unifier

open Unifier

section
variable {l r : Atom ν} {c : Bindings ν}

/-- Unification over acyclic bindings fails only where there is no solution. -/
theorem unify_eq_none_iff (hD : Atom.Faithful D) (hl : l ∈ D) (hr : r ∈ D) (hc : c.Acyclic)
    (hcD : c.Within D) :
    unify l r c = none ↔ ¬ ∃ s : String → Atom ν, l.bind s = r.bind s ∧ c.Holds s := by
  obtain ⟨hsome, hnone⟩ := run_spec hD (clean_start hl hr hc hcD) (halts_of_unnested hc.unnested l r)
  constructor
  · rintro h ⟨s, hs⟩
    exact hnone h s (solved_start.2 hs)
  · intro h
    cases hu : unify l r c with
    | none => rfl
    | some b =>
      -- what the variables stand for under `b` is a solution
      obtain ⟨hb, -, hs⟩ := hsome b hu
      exact absurd ⟨_, solved_start.1 ((hs _).1 hb.holds_subst)⟩ h

/-- Without seeds, unification succeeds just where some assignment makes the atoms equal. -/
theorem isSome_unify_iff (hD : Atom.Faithful D) (hl : l ∈ D) (hr : r ∈ D) :
    (unify l r ∅).isSome = true ↔ ∃ s : String → Atom ν, l.bind s = r.bind s := by
  rw [← Option.not_isNone, Bool.not_eq_true', Option.isNone_eq_false_iff, Option.isSome_iff_ne_none,
    ne_eq, unify_eq_none_iff hD hl hr Bindings.acyclic_empty (Bindings.within_empty D), not_not]
  exact exists_congr fun s => and_iff_left (Bindings.holds_empty s)

/-- Unification over acyclic bindings returns acyclic bindings that make the two atoms equal and
satisfy the given ones. -/
theorem unify_sound (hD : Atom.Faithful D) {b : Bindings ν} (hl : l ∈ D) (hr : r ∈ D)
    (hc : c.Acyclic) (hcD : c.Within D) (h : unify l r c = some b) :
    b.subst l = b.subst r ∧ b.Acyclic ∧
      ∀ x a, c.find? x = some a → b.subst (.var x) = b.subst a := by
  have hhalts := halts_of_unnested hc.unnested l r
  obtain ⟨hb, -, hs⟩ := (run_spec hD (clean_start hl hr hc hcD) hhalts).1 b h
  obtain ⟨heq, hseed⟩ := solved_start.1 ((hs _).1 hb.holds_subst)
  exact ⟨heq, hb, hseed⟩

/-- A seeded chain: `$y` stands for `$x`, which the two atoms then make `a`. -/
def chain : Bindings Double := (∅ : Bindings Double).insert "y" (.var "x")

theorem chain_acyclic : chain.Acyclic :=
  Bindings.acyclic_empty.insert (a := .var "x") rfl (by decide)

theorem chain_within : chain.Within {a | Atom.Plain a} :=
  (Bindings.within_empty _).insert "y" (.var (by decide))

theorem plain_call {x : Atom Double} (hx : Atom.Plain x) : Atom.Plain (.expr [.symbol "f", x]) := by
  refine .expr (List.forall_mem_cons.2 ⟨.symbol (by decide), ?_⟩)
  exact List.forall_mem_singleton.2 hx

theorem plain_calls : Atom.Plain (.expr [.symbol "f", .var "y"] : Atom Double) ∧
    Atom.Plain (.expr [.symbol "f", .symbol "a"] : Atom Double) :=
  ⟨plain_call (.var (by decide)), plain_call (.symbol (by decide))⟩

theorem unify_chain : unify (.expr [.symbol "f", .var "y"]) (.expr [.symbol "f", .symbol "a"]) chain =
    some (chain.insert "x" (.symbol "a")) := by
  calc unify _ _ chain
    _ = run ⟨[(.symbol "f", .symbol "f"), (.var "x", .symbol "a")], chain, []⟩ := run_cons rfl
    _ = run ⟨[(.var "x", .symbol "a")], chain, []⟩ := run_cons rfl
    _ = run ⟨[], chain.insert "x" (.symbol "a"), []⟩ := run_cons rfl
    _ = some (chain.insert "x" (.symbol "a")) := run_of_done rfl

theorem unify_sound_chain : ∃ b : Bindings Double,
    unify (.expr [.symbol "f", .var "y"]) (.expr [.symbol "f", .symbol "a"]) chain = some b ∧
      b.subst (.expr [.symbol "f", .var "y"]) = b.subst (.expr [.symbol "f", .symbol "a"]) ∧ b.Acyclic ∧
      ∀ x a, chain.find? x = some a → b.subst (.var x) = b.subst a :=
  ⟨_, unify_chain, unify_sound Atom.faithful_plain plain_calls.1 plain_calls.2 chain_acyclic chain_within
    unify_chain⟩

/-- Unification over acyclic bindings halts. It fails only where no assignment makes the atoms equal
and satisfies the bindings, and otherwise every such assignment is an instance of what it returns. -/
theorem unify_most_general (hD : Atom.Faithful D) (hl : l ∈ D) (hr : r ∈ D) (hc : c.Acyclic)
    (hcD : c.Within D) :
    (start l r c).Halts ∧
      (unify l r c = none ↔ ¬ ∃ s : String → Atom ν, l.bind s = r.bind s ∧ c.Holds s) ∧
      ∀ b, unify l r c = some b → ∀ s : String → Atom ν, l.bind s = r.bind s → c.Holds s →
        ∀ v, s v = (b.subst (.var v)).bind s := by
  have hhalts := halts_of_unnested hc.unnested l r
  refine ⟨hhalts, unify_eq_none_iff hD hl hr hc hcD, ?_⟩
  intro b hu s heq hseed v
  obtain ⟨-, -, hs⟩ := (run_spec hD (clean_start hl hr hc hcD) hhalts).1 b hu
  exact (((hs s).2 (solved_start.2 ⟨heq, hseed⟩)).bind_subst (.var v)).symm

theorem unify_most_general_chain :
    (start (.expr [.symbol "f", .var "y"]) (.expr [.symbol "f", .symbol "a"]) chain).Halts ∧
      ∀ s : String → Atom Double, s "y" = .symbol "a" → s "x" = .symbol "a" →
        ∀ v, s v = ((chain.insert "x" (.symbol "a")).subst (.var v)).bind s := by
  obtain ⟨hhalts, -, hs⟩ := unify_most_general Atom.faithful_plain plain_calls.1 plain_calls.2
    chain_acyclic chain_within
  refine ⟨hhalts, fun s hy hx => hs _ unify_chain s ?_ ?_⟩
  · simp only [Atom.bind_expr, List.map_cons, Atom.bind_var, hy]
    rfl
  · exact (Bindings.holds_insert rfl _ s).2 ⟨Bindings.holds_empty s, hy.trans hx.symm⟩

end

end Atomspace
