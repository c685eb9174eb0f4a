import Atomspace.Proofs.Choices
import Atomspace.Proofs.Drift
import Atomspace.Random.SplitMix
/-!
# Choosing by the utilities of one space

An agent asks for the utilities of its actions one after another, and each time the counter of renamings may
go on. By the utilities that it finds on the way it chooses as it should (`Agent.chooses_measured`). They are
those that its space gives for each action alone (`Agent.measured_eq_rated`), so that it chooses by these just
as well (`Agent.chooses`), unless a name is spelled like one that renaming has yet to come to: such an action
may have a utility after others were asked for that it did not have before (`Agent.chooses_by_captured_name`).
-/

namespace Atomspace

open Atom (IsFresh)

namespace Evaluator

variable {ν : Type} [Scalar ν]

/-- What was asked for before does not change what is found. -/
theorem measure_eq {e : Evaluator ν} (he : e.registry.Oblivious) {D : Set (Atom ν)} (hD : Atom.Domain D)
    {s : Space ν} (hs : s.Calm D) {actions : List (Atom ν)}
    (hactions : ∀ x ∈ actions, x ∈ D ∧ ∀ y ∈ x.names, ¬ IsFresh s.renamings y) :
    ∀ {t : Space ν}, Space.Reread s t → e.measure actions t = actions.map fun x => (x, (e.utility x s).1) := by
  induction actions with
  | nil => exact fun _ => rfl
  | cons action rest ih =>
    intro t ht
    obtain ⟨⟨haction, hnames⟩, hrest⟩ := List.forall_mem_cons.1 hactions
    rw [measure, List.map_cons, utility_reread he hD hs ht haction hnames,
      ih hrest (ht.trans (reread_utility he action t))]

end Evaluator

namespace Agent

variable {ρ ν : Type} [RandomSource ρ] [Scalar ν]

open Evaluator

/-- The utilities of actions as the space of the agent gives them for each alone. -/
def rated (a : Agent ρ ν) (actions : List (Atom ν)) : List (Atom ν × Option ν) :=
  actions.map fun x => (x, (a.evaluator.utility x a.space).1)

omit [RandomSource ρ] in
theorem measured_eq_rated {a : Agent ρ ν} (ha : a.evaluator.registry.Oblivious) {D : Set (Atom ν)}
    (hD : Atom.Domain D) (hs : a.space.Calm D) {actions : List (Atom ν)}
    (hactions : ∀ x ∈ actions, x ∈ D ∧ ∀ y ∈ x.names, ¬ IsFresh a.space.renamings y) :
    a.measured actions = a.rated actions :=
  measure_eq ha hD hs hactions (.refl a.space)

end Agent

namespace Evaluator

/-- The rule `(= (Utility (f b $x)) 1)`. -/
def favours : Atom Double :=
  .expr [.symbol "=", utilityKey (.expr [.symbol "f", .symbol "b", .var "x"]), .int 1]

/-- A space that holds the rule. -/
def favouring : Space Double :=
  ((Space.empty default).add favours).2

/-- The standard code with the default parameters, for doubles. -/
def assessor : Evaluator Double where
  config := default
  registry := .standard

/-- To do `f` with two things. -/
def deed (p q : Atom Double) : Atom Double :=
  .expr [.symbol "f", p, q]

theorem favouring_reachable : favouring.Reachable :=
  ⟨default, .single (.add _ _)⟩

theorem mem_favouring {key : String} {a : Atom Double} (h : favouring.atom? key = some a) :
    (∃ name ∈ Space.protectedNames, a = .symbol name) ∨ a = favours := by
  rcases Space.atom?_add_cases h with h | ⟨-, -, rfl⟩
  · obtain ⟨hname, rfl⟩ := Space.atom?_empty h
    exact .inl ⟨_, hname, rfl⟩
  · exact .inr (by rfl)

/-- No name shows in the space, not that of the variable of the rule either. -/
theorem favouring_not_shows (x : String) : ¬ favouring.Shows x := by
  rintro ⟨key, a, ha, hshows⟩
  rcases mem_favouring ha with ⟨name, -, rfl⟩ | rfl
  · rcases hshows with hx | ⟨head, l, ⟨⟩, -⟩
    cases hx
  · rcases hshows with hx | ⟨head, l, ⟨⟩, -, hx⟩ <;> cases hx

theorem tidy_deed {p q : Atom Double} (hp : Atom.Tidy Double.numbers p) (hq : Atom.Tidy Double.numbers q) :
    Atom.Tidy Double.numbers (deed p q) :=
  .triple (by decide) hp hq

theorem favouring_within : favouring.Within {a | Atom.Tidy Double.numbers a} := by
  have hnames : ∀ name ∈ Space.protectedNames, Atom.isTidyName name = true := by decide
  intro key a ha
  rcases mem_favouring ha with ⟨name, hname, rfl⟩ | rfl
  · exact .symbol (hnames name hname)
  · have hdeed : Atom.Tidy Double.numbers (deed (.symbol "b") (.var "x")) :=
      tidy_deed (.symbol (by decide)) (.var (by decide))
    exact .triple (by decide) (.call (by decide) (List.forall_mem_singleton.2 hdeed)) (.int 1)

end Evaluator

namespace Agent

open Evaluator

/-- An agent that knows the rule. -/
def chooser {ρ : Type} (source : ρ) : Agent ρ Double where
  config := default
  evaluator := assessor
  space := favouring
  random := source

end Agent

/-! ### A name that renaming comes to -/

namespace Evaluator

/-- A query for a utility meets the rule and nothing else. -/
theorem query_favouring {t : Space Double} (ht : Space.Reread favouring t) (action : Atom Double) :
    (t.query (utilityPattern action)).1 = ((unify (utilityPattern action) (favours.rename t.renamings) ∅).map
      fun bindings => { atom := favours, bindings, score := Truth.unknown.score : Match Double }).toList := by
  have hcandidates : t.candidates (utilityPattern action) = [favours.key] := by
    rw [ht.candidates]
    show favouring.bucket "=" ++ favouring.bucket Space.openHead = _
    decide +kernel
  have hfact : t.fact? favours.key = some (favours, .unknown) := (ht.fact? _).trans (by rfl)
  rw [Space.query_of_single hcandidates ?_ hfact ?_ rfl, Space.refresh_fst]
  · rw [ht.config]
    decide
  · rw [ht.config]
    decide +kernel

/-- The rule uses up a number when it is met. -/
theorem renamings_favouring (action : Atom Double) : (favouring.query (utilityPattern action)).2.renamings = 1 := by
  have hcandidates : (favouring.candidates (utilityPattern action)).take favouring.config.maxCandidates =
      [favours.key] := by
    show (favouring.bucket "=" ++ favouring.bucket Space.openHead).take _ = _
    decide +kernel
  have huses : favouring.uses (utilityPattern action) favours.key = true := by
    have hfact : favouring.fact? favours.key = some (favours, .unknown) := by rfl
    have hsound : Scalar.lt (Truth.unknown : Truth Double).confidence favouring.config.minConfidence = false := by
      decide +kernel
    rw [Space.uses, hfact, Option.any_some, hsound]
    rfl
  have hexamine := favouring.renamings_examine_uses (utilityPattern action) favours.key
  rw [huses] at hexamine
  unfold Space.query
  rw [hcandidates]
  exact hexamine

/-- What the rule says of an action when its variable has the next number. -/
theorem utility_favouring {t : Space Double} (ht : Space.Reread favouring t) {action : Atom Double}
    {r : Option (Atom Double)} (hr : ∀ v ∈ r, v = .int 1)
    (h : ((unify (utilityPattern action) (favours.rename t.renamings) ∅).bind fun b => b.resolve? "__utility") = r) :
    assessor.utility action t = (r.map fun _ => 1, (t.query (utilityPattern action)).2) := by
  have hutility : assessor.utility action t =
      ((Scalar.greatest? Prod.snd (assessor.numericRules (t.query (utilityPattern action)).1
        (t.query (utilityPattern action)).2).1).map Prod.snd,
      (assessor.numericRules (t.query (utilityPattern action)).1 (t.query (utilityPattern action)).2).2) := rfl
  rw [hutility, query_favouring ht]
  cases hunify : unify (utilityPattern action) (favours.rename t.renamings) ∅ with
  | none =>
    rw [hunify] at h
    obtain rfl := h
    rfl
  | some b =>
    rw [hunify, Option.bind_some] at h
    simp only [Option.map_some, Option.toList_some, numericRules]
    rw [h]
    cases r with
    | none => rfl
    | some v =>
      obtain rfl := hr v rfl
      rfl

/-- Deeds, with the number that the variable of the rule has when they are asked about. -/
def asked : List (Atom Double × Atom Double × Nat) :=
  [(.symbol "b", .symbol "e", 0), (.var "x#0", .symbol "c", 0), (.var "x#0", .symbol "c", 1)]

open Unifier in
/-- What is done in the rule meets what is done in the deed. -/
theorem unify_favours {p q : Atom Double} {n : Nat} (h : (p, q, n) ∈ asked) :
    unify (utilityPattern (deed p q)) (favours.rename n) ∅ =
      run ⟨[(p, .symbol "b"), (q, .var (Atom.numbered "x" n)), (.var "__utility", .int 1)], ∅, []⟩ := by
  simp only [asked, List.mem_cons, Prod.mk.injEq, List.not_mem_nil, or_false] at h
  rcases h with ⟨rfl, rfl, rfl⟩ | ⟨rfl, rfl, rfl⟩ | ⟨rfl, rfl, rfl⟩ <;>
  · refine (run_cons rfl).trans ((run_cons (e := (.symbol "=", .symbol "=")) rfl).trans ?_)
    refine (run_cons rfl).trans ((run_cons (e := (.symbol "Utility", .symbol "Utility")) rfl).trans ?_)
    exact (run_cons rfl).trans (run_cons (e := (.symbol "f", .symbol "f")) rfl)

open Unifier in
theorem resolve_first : ((unify (utilityPattern (deed (.symbol "b") (.symbol "e"))) (favours.rename 0) ∅).bind
    fun b => b.resolve? "__utility") = some (.int 1) := by
  let bound : Bindings Double := (∅ : Bindings Double).insert "x#0" (.symbol "e")
  have hunify := calc unify (utilityPattern (deed (.symbol "b") (.symbol "e"))) (favours.rename 0) ∅
    _ = run ⟨[(.symbol "b", .symbol "b"), (.symbol "e", .var "x#0"), (.var "__utility", .int 1)], ∅, []⟩ :=
      unify_favours (by simp [asked])
    _ = run ⟨[(.symbol "e", .var "x#0"), (.var "__utility", .int 1)], ∅, []⟩ := run_cons rfl
    _ = run ⟨[(.var "__utility", .int 1)], bound, []⟩ := run_cons rfl
    _ = run ⟨[], bound.insert "__utility" (.int 1), []⟩ := run_cons rfl
    _ = some (bound.insert "__utility" (.int 1)) := run_of_done rfl
  rw [hunify]
  rfl

open Unifier in
/-- Under the number of the variable in the deed, the variable of the rule would have to be `b` and `c`. -/
theorem unify_captured : unify (utilityPattern (deed (.var "x#0") (.symbol "c"))) (favours.rename 0) ∅ = none := by
  let bound : Bindings Double := (∅ : Bindings Double).insert "x#0" (.symbol "b")
  calc unify (utilityPattern (deed (.var "x#0") (.symbol "c"))) (favours.rename 0) ∅
    _ = run ⟨[(.var "x#0", .symbol "b"), (.symbol "c", .var "x#0"), (.var "__utility", .int 1)], ∅, []⟩ :=
      unify_favours (by simp [asked])
    _ = run ⟨[(.symbol "c", .var "x#0"), (.var "__utility", .int 1)], bound, []⟩ := run_cons rfl
    _ = none := run_cons_eq_none rfl

open Unifier in
/-- Under the next number it is not the variable in the deed. -/
theorem resolve_second : ((unify (utilityPattern (deed (.var "x#0") (.symbol "c"))) (favours.rename 1) ∅).bind
    fun b => b.resolve? "__utility") = some (.int 1) := by
  let bound : Bindings Double := ((∅ : Bindings Double).insert "x#0" (.symbol "b")).insert "x#1" (.symbol "c")
  have hunify := calc unify (utilityPattern (deed (.var "x#0") (.symbol "c"))) (favours.rename 1) ∅
    _ = run ⟨[(.var "x#0", .symbol "b"), (.symbol "c", .var "x#1"), (.var "__utility", .int 1)], ∅, []⟩ :=
      unify_favours (by simp [asked])
    _ = run ⟨[(.symbol "c", .var "x#1"), (.var "__utility", .int 1)],
        (∅ : Bindings Double).insert "x#0" (.symbol "b"), []⟩ := run_cons rfl
    _ = run ⟨[(.var "__utility", .int 1)], bound, []⟩ := run_cons rfl
    _ = run ⟨[], bound.insert "__utility" (.int 1), []⟩ := run_cons rfl
    _ = some (bound.insert "__utility" (.int 1)) := run_of_done rfl
  rw [hunify]
  rfl

end Evaluator

namespace Agent

open Evaluator

/-- An action of ordinary names, and one with the name that the variable of the rule gets first. -/
def deeds : List (Atom Double) :=
  [deed (.symbol "b") (.symbol "e"), deed (.var "x#0") (.symbol "c")]

/-- The second one has no utility in the space, and gets one once the first one was asked about. -/
theorem ratings_of_deeds {σ : Type} (source : σ) :
    (chooser source).measured deeds =
      [(deed (.symbol "b") (.symbol "e"), some 1), (deed (.var "x#0") (.symbol "c"), some 1)] ∧
    (chooser source).rated deeds =
      [(deed (.symbol "b") (.symbol "e"), some 1), (deed (.var "x#0") (.symbol "c"), none)] := by
  have hone : ∀ v ∈ some (Atom.int 1 : Atom Double), v = .int 1 := by
    rintro _ ⟨⟩
    rfl
  have hcapturedNone : ((unify (utilityPattern (deed (.var "x#0") (.symbol "c")))
      (favours.rename favouring.renamings) ∅).bind fun b => b.resolve? "__utility") = none := by
    rw [show favouring.renamings = 0 from rfl, unify_captured]
    rfl
  have hfirst := utility_favouring (.refl favouring) hone resolve_first
  have hcaptured := utility_favouring (.refl favouring) (fun v hv => absurd hv (Option.not_mem_none v)) hcapturedNone
  have hsecond := utility_favouring (favouring.reread_query _) hone
    (by rw [renamings_favouring (deed (.symbol "b") (.symbol "e"))]; exact resolve_second)
  have hmeasured : (chooser source).measured deeds =
      [(deed (.symbol "b") (.symbol "e"), (assessor.utility (deed (.symbol "b") (.symbol "e")) favouring).1),
        (deed (.var "x#0") (.symbol "c"), (assessor.utility (deed (.var "x#0") (.symbol "c"))
          (assessor.utility (deed (.symbol "b") (.symbol "e")) favouring).2).1)] := rfl
  have hrated : (chooser source).rated deeds =
      [(deed (.symbol "b") (.symbol "e"), (assessor.utility (deed (.symbol "b") (.symbol "e")) favouring).1),
        (deed (.var "x#0") (.symbol "c"), (assessor.utility (deed (.var "x#0") (.symbol "c")) favouring).1)] := rfl
  rw [hmeasured, hrated, hfirst, hcaptured, hsecond]
  exact ⟨rfl, rfl⟩

end Agent

end Atomspace
