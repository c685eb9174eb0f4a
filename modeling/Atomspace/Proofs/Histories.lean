import Atomspace.Proofs.Balance
import Atomspace.Proofs.Programs
import Atomspace.Proofs.Retrieval
import Atomspace.Proofs.Values
/-!
# Learning from a history

After any sequence of lessons an agent knows of each action what the rewards of the lessons about it
give, in their order, whatever else was learned between them, and it knows of each transition how often
it was observed (`Agent.study_history`).
-/

namespace Atomspace

/-- A transition with the reward that it earned. -/
structure Lesson (ν : Type) where
  state : Atom ν
  action : Atom ν
  next : Atom ν
  reward : ν

/-- The reader gives the atom for some text, and there is no variable in it. -/
def Atom.Spelled {ν : Type} [Scalar ν] (a : Atom ν) : Prop :=
  a.vars = [] ∧ ∃ text, readAtom text = .ok a

theorem Atom.Spelled.legible {ν : Type} [Scalar ν] {a : Atom ν} (h : a.Spelled) :
    a.Legible (Set.range Scalar.ofDecimal) := by
  obtain ⟨-, text, hread⟩ := h
  exact legible_of_readAtom hread

namespace Lesson

variable {exp : Rat → Rat}

/-- The rewards of the lessons about an action. -/
def rewards (h : List (Lesson (Exact exp))) (a : Atom (Exact exp)) : List Rat :=
  (h.filter fun l => l.action == a).map fun l => l.reward.value

/-- How often a transition comes up in lessons. -/
def times (h : List (Lesson (Exact exp))) (state action next : Atom (Exact exp)) : Nat :=
  h.countP fun l => l.state == state && l.action == action && l.next == next

/-- The utility after rewards: for each of them it moves by the rate from where it is. -/
def average (rate : Rat) (rewards : List Rat) : Rat :=
  rewards.foldl (fun u r => u + rate * (r - u)) 0

/-- What rewards make known of an action. -/
def known (rate : Rat) (rewards : List Rat) : Option (Rat × Nat) :=
  if rewards = [] then none else some (average rate rewards, rewards.length)

theorem known_concat (rate : Rat) (rewards : List Rat) (r : Rat) :
    known rate (rewards ++ [r]) = some (Agent.improved rate r (known rate rewards)) := by
  rw [known, if_neg (by simp), average, List.foldl_append, List.length_append]
  unfold known
  split
  · rename_i h
    rw [h]
    rfl
  · rfl

theorem rewards_concat (h : List (Lesson (Exact exp))) (l : Lesson (Exact exp)) (a : Atom (Exact exp)) :
    rewards (h ++ [l]) a = rewards h a ++ if l.action == a then [l.reward.value] else [] := by
  rw [rewards, List.filter_append, List.map_append, ← rewards]
  cases hsame : l.action == a <;> simp [hsame]

theorem times_concat (h : List (Lesson (Exact exp))) (l : Lesson (Exact exp)) (p a n : Atom (Exact exp)) :
    times (h ++ [l]) p a n =
      if l.state == p && l.action == a && l.next == n then times h p a n + 1 else times h p a n := by
  rw [times, List.countP_append, List.countP_singleton, ← times]
  split <;> rfl

/-- A lesson is about a transition if it counts as equal to the one that is observed. -/
theorem key_transition_eq_iff {l : Lesson (Exact exp)} {p a n : Atom (Exact exp)} (hstate : l.state.Spelled)
    (haction : l.action.Spelled) (hnext : l.next.Spelled) (hp : p.Spelled) (ha : a.Spelled)
    (hn : n.Spelled) :
    (Agent.transition p a n).key = (Agent.transition l.state l.action l.next).key ↔
      (l.state == p && l.action == a && l.next == n) = true := by
  have hbeq := Agent.transition_beq_iff hstate.legible haction.legible hnext.legible hp.legible ha.legible
    hn.legible
  rw [Bool.and_eq_true, Bool.and_eq_true, and_assoc, ← hbeq, Atom.beq_iff]
  exact ⟨fun h => ⟨rfl, h.symm⟩, fun h => h.2.symm⟩

end Lesson

namespace Agent

variable {ρ : Type} {exp : Rat → Rat}

open Evaluator (utilityKey utilityPattern numberRule)
open Space

/-- The agent after a sequence of lessons. -/
def study {ν : Type} [Scalar ν] (a : Agent ρ ν) (h : List (Lesson ν)) : Agent ρ ν :=
  h.foldl (fun a l => (a.learn l.state l.action l.next l.reward).2) a

theorem study_concat {ν : Type} [Scalar ν] (a : Agent ρ ν) (h : List (Lesson ν)) (l : Lesson ν) :
    a.study (h ++ [l]) = ((a.study h).learn l.state l.action l.next l.reward).2 := by
  rw [study, List.foldl_append]
  rfl

/-- What is true of an agent in the course of its lessons about some actions. -/
structure Studied (A : Set (Atom (Exact exp))) (a : Agent ρ (Exact exp)) (h : List (Lesson (Exact exp))) :
    Prop where
  reachable : (a.study h).space.Reachable
  settings : (a.study h).space.config = a.space.config
  config : (a.study h).config = a.config
  knows : ∀ x ∈ A, (a.study h).space.Knows x (Lesson.known a.config.learningRate.value (Lesson.rewards h x))

/-- Without limits in the way the rule about an action can be found. -/
theorem admits_of_uncut {s : Space (Exact exp)} {x : Atom (Exact exp)} {known : Option (Rat × Nat)}
    (hs : s.Reachable) (h : s.Knows x known) (hx : x.vars = [])
    (hconfidence : s.config.minConfidence.value ≤ 1 / 2) (huncut : s.Uncut (utilityPattern x)) :
    s.Admits x known := by
  refine ⟨hconfidence, huncut.1, fun hknown => ?_⟩
  obtain ⟨⟨u, k⟩, rfl⟩ := Option.ne_none_iff_exists'.1 hknown
  obtain ⟨left, truth, hmatches, -⟩ := h.examineAll_some hs.filed hs.distinct hx hconfidence
  have hresults := huncut.2
  rwa [hmatches] at hresults

section
variable {A : Set (Atom (Exact exp))} {a : Agent ρ (Exact exp)} {h : List (Lesson (Exact exp))}
  (hA : ∀ x ∈ A, x.Spelled) (hconfidence : a.space.config.minConfidence.value ≤ 1 / 2)
include hA hconfidence

theorem Studied.admits (hstudied : Studied A a h) {x : Atom (Exact exp)} (hx : x ∈ A)
    (huncut : (a.study h).space.Uncut (utilityPattern x)) :
    (a.study h).space.Admits x (Lesson.known a.config.learningRate.value (Lesson.rewards h x)) :=
  admits_of_uncut hstudied.reachable (hstudied.knows x hx) (hA x hx).1 (hstudied.settings ▸ hconfidence) huncut

/-- One more lesson. -/
theorem Studied.concat (hstudied : Studied A a h) {l : Lesson (Exact exp)} (hl : l.action ∈ A)
    (huncut : (a.study h).space.Uncut (utilityPattern l.action)) : Studied A a (h ++ [l]) := by
  have hadmits := hstudied.admits hA hconfidence hl huncut
  have hknows := hstudied.knows _ hl
  have hground := (hA _ hl).1
  refine ⟨?_, ?_, ?_, ?_⟩
  · rw [study_concat]
    exact reachable_learn hstudied.reachable hknows hadmits hground ..
  · rw [study_concat, config_learn hstudied.reachable hknows hadmits hground, hstudied.settings]
  · rw [study_concat, agent_config_learn hstudied.reachable hknows hadmits hground, hstudied.config]
  · intro x hx
    have hlearned := knows_learn hstudied.reachable hknows hadmits hground l.state l.next l.reward
      (hA x hx).1 (hstudied.knows x hx)
    rw [study_concat, Lesson.rewards_concat]
    have hbeq := Atom.Legible.beq_iff_key (hA _ hl).legible (hA x hx).legible
    split at hlearned
    · rename_i hkey
      -- two actions that count as equal are known alike
      rw [hknows.eq_of_key (hstudied.knows x hx) hkey.symm, hstudied.config] at hlearned
      rwa [hbeq.2 hkey.symm, if_pos rfl, Lesson.known_concat]
    · rename_i hkey
      rw [if_neg fun h => hkey (hbeq.1 h).symm, List.append_nil]
      exact hlearned

/-- An action that came up has one rule, with its utility and its evidence. -/
theorem Studied.learned (hstudied : Studied A a h) {x : Atom (Exact exp)} (hx : x ∈ A)
    (huncut : (a.study h).space.Uncut (utilityPattern x)) {u : Rat} (hrewards : Lesson.rewards h x ≠ [])
    (hu : u = Lesson.average a.config.learningRate.value (Lesson.rewards h x)) :
    (∃ left truth, (a.study h).space.fact? (ruleKey x u) = some (numberRule left ⟨u⟩, truth) ∧
      (utilityKey x == left) = true ∧ truth.count.value = (Lesson.rewards h x).length) ∧
    (∀ key b, (a.study h).space.atom? key = some b → ((utilityPattern x).Meets b ↔ key = ruleKey x u)) ∧
    (a.evaluator.utility x (a.study h).space).1 = some ⟨u⟩ := by
  have hknown : Lesson.known a.config.learningRate.value (Lesson.rewards h x) =
      some (u, (Lesson.rewards h x).length) := by rw [Lesson.known, if_neg hrewards, hu]
  have hknows := hstudied.knows x hx
  have hutility := a.evaluator.utility_eq hknows hstudied.reachable.filed hstudied.reachable.distinct (hA x hx).1
    (hstudied.admits hA hconfidence hx huncut)
  rw [hknown] at hknows hutility
  obtain ⟨-, left, truth, hfact, hmatch, hleft, hcount⟩ := hknows.rule _ _ rfl
  refine ⟨⟨left, truth, hfact, hmatch, hcount⟩, fun key b hb => ⟨fun hmeets => ?_, ?_⟩, ?_⟩
  · obtain ⟨u, k, hk, rfl⟩ := hknows.only key b hb hmeets
    cases hk
    rfl
  · rintro rfl
    rw [atom?_of_fact? hfact] at hb
    cases hb
    refine ⟨0, ?_⟩
    rw [Atom.rename, Atom.bind_of_ground (Evaluator.vars_numberRule hleft _),
      Evaluator.unify_numberRule (hA x hx).1 hleft, hmatch]
    rfl
  · rw [hutility]
    rfl

/-- An action that did not come up has no rule. -/
theorem Studied.unlearned (hstudied : Studied A a h) {x : Atom (Exact exp)} (hx : x ∈ A)
    (huncut : (a.study h).space.Uncut (utilityPattern x)) (hrewards : Lesson.rewards h x = []) :
    (∀ key b, (a.study h).space.atom? key = some b → ¬ (utilityPattern x).Meets b) ∧
    (a.evaluator.utility x (a.study h).space).1 = none := by
  have hknown : Lesson.known a.config.learningRate.value (Lesson.rewards h x) = none := if_pos hrewards
  have hknows := hstudied.knows x hx
  have hutility := a.evaluator.utility_eq hknows hstudied.reachable.filed hstudied.reachable.distinct (hA x hx).1
    (hstudied.admits hA hconfidence hx huncut)
  rw [hknown] at hknows hutility
  refine ⟨fun key b hb hmeets => ?_, by rw [hutility]; rfl⟩
  obtain ⟨u, k, hk, -⟩ := hknows.only key b hb hmeets
  cases hk

/-- The answer to the next lesson. -/
theorem Studied.answer (hstudied : Studied A a h) {l : Lesson (Exact exp)} (hl : l.action ∈ A)
    (huncut : (a.study h).space.Uncut (utilityPattern l.action)) :
    ((a.study h).learn l.state l.action l.next l.reward).1 =
      ⟨Lesson.average a.config.learningRate.value (Lesson.rewards (h ++ [l]) l.action)⟩ := by
  have hadmits := hstudied.admits hA hconfidence hl huncut
  have hknown := Lesson.known_concat a.config.learningRate.value (Lesson.rewards h l.action) l.reward.value
  rw [Lesson.known, if_neg (by simp)] at hknown
  rw [fst_learn hstudied.reachable (hstudied.knows _ hl) hadmits (hA _ hl).1, hstudied.config,
    Lesson.rewards_concat, if_pos (Atom.beq_self _)]
  exact congrArg Exact.mk (congrArg Prod.fst (Option.some.inj hknown)).symm

end

/-! ## Observed transitions -/

/-- How much evidence there is for an atom, if it is stored. -/
def evidence (s : Space (Exact exp)) (x : Atom (Exact exp)) : Option Rat :=
  (s.value? x).map fun v => v.truth.count.value

theorem evidence_eq (s : Space (Exact exp)) (x : Atom (Exact exp)) :
    evidence s x = (s.fact? x.key).map fun fact => fact.2.count.value := by
  have hcount := congrArg (Option.map Exact.value) (count_value? s x)
  rwa [Option.map_map, Option.map_map] at hcount

/-- The evidence of so many observations; without any an atom is not stored. -/
def observations (n : Nat) : Option Rat :=
  if n = 0 then none else some n

theorem evidence_assert_observed {s : Space (Exact exp)} (hs : s.Filed) (x y : Atom (Exact exp)) {n : Nat}
    (h : evidence s x = observations n) :
    evidence (s.assert y (.observed 1.0)).2 x = observations (if x.key = y.key then n + 1 else n) := by
  have hone : (Truth.observed (1.0 : Exact exp)).count.value = 1 :=
    (Truth.count_ofEvidence _ (Exact.value_one.symm ▸ zero_le_one)).trans Exact.value_one
  rw [evidence_eq] at h ⊢
  have hold : ((s.fact? x.key).getD (s.share y, .unknown)).2.count.value = n := by
    rw [observations] at h
    cases hfact : s.fact? x.key with
    | none =>
      rw [hfact] at h
      split at h
      · rename_i hn
        rw [hn, Option.getD_none, Truth.count_unknown, Nat.cast_zero]
      · cases h
    | some fact =>
      rw [hfact] at h
      split at h
      · cases h
      · exact Option.some.inj h
  rw [fact?_assert hs]
  split
  · rw [Option.map_some, observations, if_neg (Nat.succ_ne_zero n), Option.some_inj, Truth.count_merge]
    · rw [hone, hold, Nat.cast_succ]
    · rw [hold]
      exact Nat.cast_nonneg n
    · rw [hone]
      exact one_pos
  · exact h

/-! ## Whole histories -/

/-- No stored atom passes by its key alone for a rule about the action, or for the left side of one. -/
structure Genuine (s : Space (Exact exp)) (x : Atom (Exact exp)) : Prop where
  rule : ∀ u, s.contains (ruleKey x u) = false
  left : ∀ b, s.atom? (utilityKey x).key = some b → (b == utilityKey x) = true → b.vars = []

theorem Genuine.knows {s : Space (Exact exp)} {x : Atom (Exact exp)} (h : Genuine s x)
    (hunmet : ∀ key b, s.atom? key = some b → ¬ (utilityPattern x).Meets b) : s.Knows x none where
  rule := nofun
  only key b hb hmeets := absurd hmeets (hunmet key b hb)
  free u hu := by
    rw [h.rule u] at hu
    cases hu
  plain := h.left

section
variable {A : Set (Atom (Exact exp))} {a : Agent ρ (Exact exp)} (hreach : a.space.Reachable)
  (hconfidence : a.space.config.minConfidence.value ≤ 1 / 2) (hA : ∀ x ∈ A, x.Spelled)
  (hunmet : ∀ x ∈ A, ∀ key b, a.space.atom? key = some b → ¬ (utilityPattern x).Meets b)
  (hgenuine : ∀ x ∈ A, Genuine a.space x)
include hreach hconfidence hA hunmet hgenuine

theorem studied {h : List (Lesson (Exact exp))} (hlessons : ∀ l ∈ h, l.action ∈ A)
    (huncut : ∀ g, g <+: h → ∀ x ∈ A, (a.study g).space.Uncut (utilityPattern x)) : Studied A a h := by
  induction h using List.reverseRecOn with
  | nil => exact ⟨hreach, rfl, rfl, fun x hx => (hgenuine x hx).knows (hunmet x hx)⟩
  | append_singleton h l ih =>
    have hl : l.action ∈ A := hlessons l (by simp)
    have hprefix := List.prefix_append h [l]
    have hstudied := ih (fun l' hl' => hlessons l' (by simp [hl'])) fun g hg => huncut g (hg.trans hprefix)
    exact hstudied.concat hA hconfidence hl (huncut h hprefix _ hl)

theorem evidence_study {h : List (Lesson (Exact exp))}
    (hlessons : ∀ l ∈ h, l.state.Spelled ∧ l.action ∈ A ∧ l.next.Spelled)
    (huncut : ∀ g, g <+: h → ∀ x ∈ A, (a.study g).space.Uncut (utilityPattern x))
    {p x n : Atom (Exact exp)} (hp : p.Spelled) (hx : x.Spelled) (hn : n.Spelled)
    (hnew : a.space.contains (transition p x n).key = false) :
    evidence (a.study h).space (transition p x n) = observations (Lesson.times h p x n) := by
  induction h using List.reverseRecOn with
  | nil =>
    rw [evidence_eq]
    show Option.map _ (a.space.fact? (transition p x n).key) = none
    rw [fact?_eq_none_iff.2 hnew, Option.map_none]
  | append_singleton h l ih =>
    obtain ⟨hstate, haction, hnext⟩ := hlessons l (by simp)
    have hprefix := List.prefix_append h [l]
    have hbefore (l') (hl' : l' ∈ h) := hlessons l' (List.mem_append_left _ hl')
    have hcut (g) (hg : g <+: h) := huncut g (hg.trans hprefix)
    have hstudied := studied hreach hconfidence hA hunmet hgenuine (fun l' hl' => (hbefore l' hl').2.1) hcut
    have hadmits := hstudied.admits hA hconfidence haction (huncut h hprefix _ haction)
    have hkey (u : Rat) : (transition p x n).key ≠ ruleKey l.action u :=
      (aside_transition p x n).key_ne_numberRule _ _
    have hobserved := evidence_assert_observed hstudied.reachable.filed (transition p x n)
      (transition l.state l.action l.next) (ih hbefore hcut)
    rw [evidence_eq] at hobserved ⊢
    rw [study_concat, fact?_learn hstudied.reachable (hstudied.knows _ haction) hadmits (hA _ haction).1 _ _ _ hkey,
      hobserved, Lesson.times_concat]
    simp only [Lesson.key_transition_eq_iff hstate (hA _ haction) hnext hp hx hn]

end

/-- After lessons about some actions, an agent that started out without a rule about them has one rule for
each of those that came up. Its number is the utility that the rewards of the action give in their
order, which is what learning answers and what is read from then on, and its evidence is their number.
About the others it has no rule, and each transition has as much evidence as it came up. -/
theorem study_history {A : Set (Atom (Exact exp))} {a : Agent ρ (Exact exp)} {h : List (Lesson (Exact exp))}
    (hreach : a.space.Reachable) (hconfidence : a.space.config.minConfidence.value ≤ 1 / 2)
    (hA : ∀ x ∈ A, x.Spelled)
    (hunmet : ∀ x ∈ A, ∀ key b, a.space.atom? key = some b → ¬ (utilityPattern x).Meets b)
    (hgenuine : ∀ x ∈ A, Genuine a.space x)
    (hlessons : ∀ l ∈ h, l.state.Spelled ∧ l.action ∈ A ∧ l.next.Spelled)
    (huncut : ∀ g, g <+: h → ∀ x ∈ A, (a.study g).space.Uncut (utilityPattern x)) :
    (∀ x ∈ A, ∀ u, Lesson.rewards h x ≠ [] →
      u = Lesson.average a.config.learningRate.value (Lesson.rewards h x) →
      (∃ left truth, (a.study h).space.fact? (ruleKey x u) = some (numberRule left ⟨u⟩, truth) ∧
        (utilityKey x == left) = true ∧ truth.count.value = (Lesson.rewards h x).length) ∧
      (∀ key b, (a.study h).space.atom? key = some b → ((utilityPattern x).Meets b ↔ key = ruleKey x u)) ∧
      (a.evaluator.utility x (a.study h).space).1 = some ⟨u⟩) ∧
    (∀ x ∈ A, Lesson.rewards h x = [] →
      (∀ key b, (a.study h).space.atom? key = some b → ¬ (utilityPattern x).Meets b) ∧
      (a.evaluator.utility x (a.study h).space).1 = none) ∧
    (∀ g l, g ++ [l] <+: h → ((a.study g).learn l.state l.action l.next l.reward).1 =
      ⟨Lesson.average a.config.learningRate.value (Lesson.rewards (g ++ [l]) l.action)⟩) ∧
    ∀ p x n, p.Spelled → x.Spelled → n.Spelled → a.space.contains (transition p x n).key = false →
      evidence (a.study h).space (transition p x n) = observations (Lesson.times h p x n) := by
  have hstudied {g : List (Lesson (Exact exp))} (hg : g <+: h) : Studied A a g :=
    studied hreach hconfidence hA hunmet hgenuine (fun l hl => (hlessons l (hg.subset hl)).2.1)
      fun f hf => huncut f (hf.trans hg)
  have hafter := hstudied (List.prefix_refl h)
  have hcut {x : Atom (Exact exp)} (hx : x ∈ A) := huncut h (List.prefix_refl h) x hx
  refine ⟨fun x hx u hrewards hu => hafter.learned hA hconfidence hx (hcut hx) hrewards hu,
    fun x hx hrewards => hafter.unlearned hA hconfidence hx (hcut hx) hrewards, fun g l hgl => ?_,
    fun p x n hp hx hn hnew => evidence_study hreach hconfidence hA hunmet hgenuine hlessons huncut hp hx hn hnew⟩
  have hg := (List.prefix_append g [l]).trans hgl
  have hl : l.action ∈ A := (hlessons l (hgl.subset (by simp))).2.1
  exact (hstudied hg).answer hA hconfidence hl (huncut g hg _ hl)

/-! ## First lessons -/

/-- In a space of symbols nothing meets a pattern of rules. -/
theorem not_meets_symbol (x : Atom (Exact exp)) (name : String) : ¬ (utilityPattern x).Meets (.symbol name) := by
  rintro ⟨n, hsome⟩
  rw [show (Atom.symbol name : Atom (Exact exp)).rename n = .symbol name from rfl,
    Evaluator.unify_symbol_eq_none] at hsome
  cases hsome

/-- No rule is known in an empty space. -/
theorem genuine_empty (config : SpaceConfig (Exact exp)) (x : Atom (Exact exp)) :
    Genuine (Space.empty config) x := by
  have hhead : ∀ name ∈ protectedNames, name.toList.head? ≠ some '(' := by decide
  refine ⟨fun u => ?_, fun b hb _ => ?_⟩
  · rw [Bool.eq_false_iff]
    intro hcontains
    rw [contains_eq] at hcontains
    obtain ⟨b, hb⟩ := Option.isSome_iff_exists.1 hcontains
    refine hhead _ (atom?_empty hb).1 ?_
    rw [ruleKey, Evaluator.key_toList_numberRule]
    rfl
  · rw [(atom?_empty hb).2]
    rfl

theorem not_meets_empty {config : SpaceConfig (Exact exp)} (x : Atom (Exact exp)) {key : String}
    {b : Atom (Exact exp)} (hb : (Space.empty config).atom? key = some b) : ¬ (utilityPattern x).Meets b := by
  rw [(atom?_empty hb).2]
  exact not_meets_symbol x key

theorem uncut_of_candidates {s : Space (Exact exp)} {p : Atom (Exact exp)} {n : Nat}
    (h : (s.candidates p).length ≤ n) (hcandidates : n ≤ s.config.maxCandidates)
    (hresults : n ≤ s.config.maxResults) : s.Uncut p :=
  ⟨h.trans hcandidates, ((s.length_examineAll_le p _).trans h).trans hresults⟩

section
variable {actions : List (Atom (Exact exp))} {a : Agent ρ (Exact exp)} {config : SpaceConfig (Exact exp)}
  {h : List (Lesson (Exact exp))}

/-- Limits above the number of actions cut nothing. -/
theorem Studied.uncut (hstudied : Studied {x | x ∈ actions} a h) (hrules : (a.study h).space.RulesAbout actions)
    (hcandidates : actions.length ≤ a.space.config.maxCandidates)
    (hresults : actions.length ≤ a.space.config.maxResults) (x : Atom (Exact exp)) :
    (a.study h).space.Uncut (utilityPattern x) :=
  uncut_of_candidates (hrules.length_candidates_le hstudied.reachable.filed hstudied.reachable.distinct
    (fun c hc => ⟨_, hstudied.knows c hc⟩) x) (hstudied.settings ▸ hcandidates) (hstudied.settings ▸ hresults)

/-- So an agent that starts from nothing finds all rules, however long its history. -/
theorem uncut_study (hspace : a.space = .empty config) (hconfidence : config.minConfidence.value ≤ 1 / 2)
    (hactions : ∀ x ∈ actions, x.Spelled) (hcandidates : actions.length ≤ config.maxCandidates)
    (hresults : actions.length ≤ config.maxResults) (hlessons : ∀ l ∈ h, l.action ∈ actions)
    (x : Atom (Exact exp)) : (a.study h).space.Uncut (utilityPattern x) := by
  have hconfig : a.space.config = config := hspace ▸ config_empty config
  rw [← hconfig] at hconfidence hcandidates hresults
  suffices h : Studied {x | x ∈ actions} a h ∧ (a.study h).space.RulesAbout actions from
    h.1.uncut h.2 hcandidates hresults x
  induction h using List.reverseRecOn with
  | nil =>
    refine ⟨⟨hspace ▸ ⟨config, .refl⟩, rfl, rfl, fun x _ => ?_⟩, hspace ▸ rulesAbout_empty config actions⟩
    exact hspace ▸ (genuine_empty config x).knows fun _ _ => not_meets_empty x
  | append_singleton h l ih =>
    obtain ⟨hstudied, hrules⟩ := ih fun l' hl' => hlessons l' (List.mem_append_left _ hl')
    have hl : l.action ∈ actions := hlessons l (by simp)
    have huncut := hstudied.uncut hrules hcandidates hresults l.action
    refine ⟨hstudied.concat hactions hconfidence hl huncut, ?_⟩
    rw [study_concat]
    exact rulesAbout_learn hstudied.reachable (hstudied.knows _ hl)
      (hstudied.admits hactions hconfidence hl huncut) (hactions _ hl).1 _ _ _ hrules hl

end

/-- An agent that knows a space, with all defaults. -/
def novice (s : Space (Exact fun _ => 1)) : Agent SplitMix (Exact fun _ => 1) where
  config := default
  evaluator := Evaluator.usual
  space := s
  random := {}

/-- To go from `S` to `T` earned the reward 1. -/
def going : Lesson (Exact fun _ => 1) where
  state := .symbol "S"
  action := .symbol "go"
  next := .symbol "T"
  reward := ⟨1⟩

/-- To wait in `S` cost 1. -/
def waiting : Lesson (Exact fun _ => 1) where
  state := .symbol "S"
  action := .symbol "wait"
  next := .symbol "S"
  reward := ⟨-1⟩

/-- It went, waited and went again, which earned nothing this time. -/
def outing : List (Lesson (Exact fun _ => 1)) :=
  [going, waiting, { going with reward := ⟨0⟩ }]

/-- What there is to do. -/
def errands : List (Atom (Exact fun _ => 1)) :=
  [.symbol "go", .symbol "wait", .symbol "return"]

theorem spelled_symbol {name : String} (h : readAtom name = .ok (.symbol name : Atom (Exact exp))) :
    (Atom.symbol name : Atom (Exact exp)).Spelled :=
  ⟨rfl, name, h⟩

/-- The second lesson about going has moved its utility from 1/2 to 1/4, and the rule for 1/2 is gone.
Waiting has a utility of its own, and turning back, which was not tried, has none. -/
theorem study_history_going :
    (∀ key b, ((novice (.empty default)).study outing).space.atom? key = some b →
      ((utilityPattern (.symbol "go")).Meets b ↔ key = ruleKey (.symbol "go" : Atom (Exact fun _ => 1)) (1 / 4))) ∧
    (Evaluator.usual.utility (.symbol "go") ((novice (.empty default)).study outing).space).1 = some ⟨1 / 4⟩ ∧
    (Evaluator.usual.utility (.symbol "wait") ((novice (.empty default)).study outing).space).1 = some ⟨-1 / 2⟩ ∧
    (Evaluator.usual.utility (.symbol "return") ((novice (.empty default)).study outing).space).1 = none ∧
    evidence ((novice (.empty default)).study outing).space
      (transition (.symbol "S") (.symbol "go") (.symbol "T")) = some 2 := by
  have hS : (Atom.symbol "S" : Atom (Exact fun _ => 1)).Spelled := spelled_symbol (by rfl)
  have hT : (Atom.symbol "T" : Atom (Exact fun _ => 1)).Spelled := spelled_symbol (by rfl)
  have hgo : (Atom.symbol "go" : Atom (Exact fun _ => 1)).Spelled := spelled_symbol (by rfl)
  have hwait : (Atom.symbol "wait" : Atom (Exact fun _ => 1)).Spelled := spelled_symbol (by rfl)
  have hreturn : (Atom.symbol "return" : Atom (Exact fun _ => 1)).Spelled := spelled_symbol (by rfl)
  have hactions : ∀ x ∈ errands, x.Spelled := by
    simpa [errands] using ⟨hgo, hwait, hreturn⟩
  have hlessons : ∀ l ∈ outing, l.state.Spelled ∧ l.action ∈ errands ∧ l.next.Spelled := by
    simpa [outing, going, waiting, errands] using ⟨hS, hT⟩
  have huncut (g : List (Lesson (Exact fun _ => 1))) (hg : g <+: outing) (x : Atom (Exact fun _ => 1)) :=
    uncut_study (a := novice (.empty default)) rfl (by decide +kernel) hactions (by decide +kernel)
      (by decide +kernel) (fun l hl => (hlessons l (hg.subset hl)).2.1) x
  obtain ⟨hlearned, hunlearned, -, htransitions⟩ := study_history (a := novice (.empty default)) (h := outing)
    (A := {x | x ∈ errands}) ⟨default, .refl⟩ (by decide +kernel) hactions (fun x _ _ _ => not_meets_empty x)
    (fun x _ => genuine_empty _ x) hlessons fun g hg x _ => huncut g hg x
  obtain ⟨-, honly, hgoing⟩ := hlearned (.symbol "go") (by simp [errands]) (1 / 4) (by decide +kernel) (by decide +kernel)
  obtain ⟨-, -, hwaiting⟩ := hlearned (.symbol "wait") (by simp [errands]) (-1 / 2) (by decide +kernel) (by decide +kernel)
  obtain ⟨-, hreturning⟩ := hunlearned (.symbol "return") (by simp [errands]) (by decide +kernel)
  exact ⟨honly, hgoing, hwaiting, hreturning, htransitions _ _ _ hS hgo hT (by decide +kernel)⟩

/-- A space with a symbol spelled like the rule that the first lesson writes. -/
def disguised : Space (Exact fun _ => 1) :=
  ((Space.empty default).add (.symbol "(= (Utility go) &float 1/2)")).2

/-- The symbol has the key of the rule, so the rule is never stored. -/
theorem study_forgets_disguised : ¬ ∀ (a : Agent SplitMix (Exact fun _ => 1)) (x : Atom (Exact fun _ => 1))
    (l : Lesson (Exact fun _ => 1)), a.space.Reachable → a.space.config.minConfidence.value ≤ 1 / 2 →
      x.Spelled → l.action = x → l.state.Spelled → l.next.Spelled →
      (∀ key b, a.space.atom? key = some b → ¬ (utilityPattern x).Meets b) →
      a.space.contains (transition l.state l.action l.next).key = false →
      (∀ g, g <+: [l] → (a.study g).space.Uncut (utilityPattern x)) →
      (a.evaluator.utility x (a.study [l]).space).1 =
        some ⟨Lesson.average a.config.learningRate.value [l.reward.value]⟩ := by
  intro h
  have hatom {key : String} {b : Atom (Exact fun _ => 1)} (hb : disguised.atom? key = some b) :
      ∃ name, b = .symbol name := by
    rcases atom?_add_cases hb with hb | ⟨-, -, rfl⟩
    · exact ⟨key, (atom?_empty hb).2⟩
    · exact ⟨_, rfl⟩
  have hreach : disguised.Reachable := ⟨default, .single (.add _ _)⟩
  have hutility := h (novice disguised) (.symbol "go") going hreach (by decide +kernel)
    (spelled_symbol (by rfl)) rfl (spelled_symbol (by rfl)) (spelled_symbol (by rfl)) ?_ (by decide +kernel) ?_
  · let after := ((novice disguised).study [going]).space
    have hnone : (Evaluator.usual.utility (.symbol "go") after).1.isNone = true := by
      decide +kernel
    have hsome : (Evaluator.usual.utility (.symbol "go") after).1.isNone = false :=
      congrArg Option.isNone hutility
    rw [hnone] at hsome
    cases hsome
  · intro key b hb
    obtain ⟨name, rfl⟩ := hatom hb
    exact not_meets_symbol _ name
  · intro g hg
    refine uncut_of_candidates (n := 0) ?_ (Nat.zero_le _) (Nat.zero_le _)
    rw [candidates_utilityPattern]
    obtain rfl | ⟨g, rfl, hrest⟩ := List.prefix_cons_iff.1 hg
    · decide +kernel
    · obtain rfl := List.prefix_nil.1 hrest
      decide +kernel

end Agent

end Atomspace
