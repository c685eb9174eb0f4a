import Atomspace.Proofs.Confidence
import Atomspace.Proofs.Ranking
import Atomspace.Proofs.Repetition
/-!
# What floors and ranks compare

Every stored truth is in range, whatever is done to a space, so its confidence and score are weights unless its
count is infinite. Infinite counts come from outside only: from a truth that is asserted, from an update, or
from the number of observations that an agent counts a percept for. Where none does, no use brings one about
(`Space.UseBy.believes`), and queries compare weights with their floor and rank by weights (`Space.Weighed`).
-/

namespace Atomspace

open Relation (ReflTransGen)

/-! ## Stored truths -/

namespace Space

variable {ν : Type} [Scalar ν] {P : Truth ν → Prop} {s : Space ν}

/-- The truths of all stored atoms have a property. -/
def Believes (P : Truth ν → Prop) (s : Space ν) : Prop :=
  s.slots.All fun slot => P slot.value.truth

namespace Believes

omit [Scalar ν] in
theorem of_fact? (hs : s.Believes P) {key : String} {a : Atom ν} {t : Truth ν}
    (h : s.fact? key = some (a, t)) : P t := by
  obtain ⟨slot, hslot, heq⟩ := Option.map_eq_some_iff.1 h
  cases heq
  exact Table.All.get? hs hslot

theorem of_value? (hs : s.Believes P) {a : Atom ν} {v : Valuation ν} (h : s.value? a = some v) : P v.truth := by
  obtain ⟨slot, hslot, rfl⟩ := Option.map_eq_some_iff.1 h
  exact Table.All.get? hs hslot

theorem touch (hs : s.Believes P) (key : String) (amount : ν) : (s.touch key amount).Believes P :=
  Table.All.modify hs key fun _ h => h

theorem add (hnew : P .unknown) (hs : s.Believes P) (a : Atom ν) : (s.add a).2.Believes P := by
  have hstore : (s.store a).Believes P := by
    unfold Believes
    rw [slots_store]
    exact Table.All.insert hs a.key hnew
  unfold Space.add
  simp only
  split
  · exact hs.touch _ _
  · exact hstore.touch _ _

theorem update (hs : s.Believes P) (a : Atom ν) {f : Valuation ν → Valuation ν}
    (hf : ∀ v, P v.truth → P (f v).truth) : (s.update a f).2.Believes P := by
  unfold Space.update
  split
  · exact hs
  · rename_i old hold
    have hnew := hf old (hs.of_value? hold)
    refine Table.All.modify hs a.key fun _ _ => ?_
    simp only
    split
    · exact hnew
    · exact hnew

theorem assert (hnew : P .unknown) (hs : s.Believes P) (a : Atom ν) {t : Truth ν}
    (ht : ∀ u, P u → P (u.merge t)) : (s.assert a t).2.Believes P :=
  (hs.add hnew a).update _ fun v => ht v.truth

theorem drop (hs : s.Believes P) (key : String) : (s.drop key).Believes P := by
  unfold Believes
  rw [slots_drop]
  exact Table.All.erase hs key

theorem remove (hs : s.Believes P) (h : Atom.Handle) : (s.remove h).2.Believes P := by
  unfold Space.remove
  split
  · exact hs
  · exact hs.drop h.key

theorem query (hs : s.Believes P) (pattern : Atom ν) : (s.query pattern).2.Believes P :=
  examineAll_of_touch (P := Believes P) (fun _ h => h) (fun _ key amount h => h.touch key amount) pattern _ hs

theorem forget (hs : s.Believes P) : s.forget.2.Believes P :=
  forget_of_drop (P := Believes P) (fun _ key _ _ _ h => h.drop key)
    (Table.All.map (f := s.decayed) hs fun _ h => h)

/-- What the truth of a new atom has, and mergers and updates keep on some terms, operations on these terms keep. -/
theorem operation {c : Terms ν} (hnew : P .unknown) (hasserts : ∀ t, c.asserts t → ∀ u, P u → P (u.merge t))
    (hupdates : ∀ f, c.updates f → ∀ v : Valuation ν, P v.truth → P (f v).truth) {t : Space ν}
    (hs : s.Believes P) (h : Operation c s t) : t.Believes P := by
  cases h with
  | add a => exact hs.add hnew a
  | assert a ht => exact hs.assert hnew a (hasserts _ ht)
  | get key => exact hs.touch _ _
  | update a hf => exact hs.update a (hupdates _ hf)
  | boost a amount => exact hs.touch _ _
  | remove hh => exact hs.remove _
  | query pattern => exact hs.query pattern
  | forget => exact hs.forget

end Believes

theorem believes_empty (hnew : P .unknown) (config : SpaceConfig ν) : (empty config).Believes P :=
  empty_of_add (P := Believes P) (fun _ he => nomatch he) fun _ _ _ hs => hs.add hnew _

end Space

open Extended (finite infinity nan)

variable {exp : Rat → Rat}

/-! ## Finite evidence -/

namespace Truth

theorem Makes.inRange {t u : Truth (Extended exp)} (h : t.Makes u) (ht : t.InRange) : u.InRange := by
  cases h with
  | same => exact ht
  | ofEvidence strength count => exact Made.inRange ⟨strength, count, rfl⟩
  | merge u v => exact (u.made_merge v).inRange

/-- The truth is in range, and its evidence is finite. -/
structure Limited (t : Truth (Extended exp)) : Prop where
  inRange : t.InRange
  count : t.count ≠ infinity

theorem limited_unknown : (unknown : Truth (Extended exp)).Limited :=
  ⟨unknown_inRange, Extended.zero_eq.trans_ne nofun⟩

theorem Limited.merge {t u : Truth (Extended exp)} (ht : t.Limited) (hu : u.count ≠ infinity) :
    (t.merge u).Limited :=
  ⟨(t.made_merge u).inRange, fun h => (infinity_of_count_merge h).elim ht.count hu⟩

end Truth

namespace Space

variable {s t : Space (Extended exp)}

/-- No infinite evidence is given. Updates make their values, and what they make of finite evidence is finite. -/
def Terms.measured : Terms (Extended exp) where
  asserts t := t.count ≠ infinity
  updates f := Valuation.Making f ∧ ∀ v, v.truth.count ≠ infinity → (f v).truth.count ≠ infinity
  removes _ := True

theorem Believes.tempered (hs : s.Believes Truth.InRange) (h : Operation .tempered s t) :
    t.Believes Truth.InRange :=
  hs.operation Truth.unknown_inRange (fun t _ u _ => (u.made_merge t).inRange) (fun _ hf v => (hf v).1.inRange) h

theorem Believes.measured (hs : s.Believes Truth.Limited) (h : Operation .measured s t) :
    t.Believes Truth.Limited :=
  hs.operation (c := .measured) Truth.limited_unknown (fun _ ht _ hu => hu.merge ht)
    (fun _ hf v hv => ⟨(hf.1 v).1.inRange hv.inRange, hf.2 v hv.count⟩) h

/-- What is known of an atom that may be stored counts for something finite. -/
theorem Believes.count_known_ne (hs : s.Believes Truth.Limited)
    (rule? : Option (Atom (Extended exp) × Extended exp)) :
    ((rule?.bind fun rule => s.value? rule.1).map fun v => v.truth.count).getD 0.0 ≠ infinity := by
  cases hvalue : rule?.bind fun rule => s.value? rule.1 with
  | none => exact Extended.zero_eq.trans_ne nofun
  | some v =>
    obtain ⟨rule, -, hrule⟩ := Option.bind_eq_some_iff.1 hvalue
    exact (hs.of_value? hrule).count

theorem Believes.steps (hs : s.Believes Truth.Limited) (h : ReflTransGen (Operation .measured) s t) :
    t.Believes Truth.Limited := by
  induction h with
  | refl => exact hs
  | tail _ h ih => exact ih.measured h

end Space

/-! ## Agents -/

namespace Agent

variable {ρ : Type} {a b c : Agent ρ (Extended exp)}

/-- The agents are configured and evaluate alike, and the second knows by finite evidence only if the first
does. -/
structure Heeds (a b : Agent ρ (Extended exp)) : Prop where
  config : b.config = a.config
  evaluator : b.evaluator = a.evaluator
  limited : a.space.Believes Truth.Limited → b.space.Believes Truth.Limited

theorem Heeds.refl (a : Agent ρ (Extended exp)) : Heeds a a :=
  ⟨rfl, rfl, id⟩

theorem Heeds.trans (h : Heeds a b) (h' : Heeds b c) : Heeds a c :=
  ⟨h'.config.trans h.config, h'.evaluator.trans h.evaluator, h'.limited ∘ h.limited⟩

theorem Heeds.of_follows (h : Follows (Space.Operation .measured) a b) (hconfig : b.config = a.config) : Heeds a b :=
  ⟨hconfig, h.evaluator, fun hs => hs.steps h.steps⟩

/-- What the agent takes a percept for counts for something finite. -/
def Sober (a : Agent ρ (Extended exp)) : Prop :=
  (Truth.ofEvidence 1.0 a.config.perceptionCount).count ≠ infinity

theorem Heeds.sober (h : Heeds a b) (hseen : a.Sober) : b.Sober := by
  rw [Sober, h.config]
  exact hseen

theorem heeds_notice (hseen : a.Sober) (percept : Atom (Extended exp)) : Heeds a (a.notice percept) :=
  ⟨rfl, rfl, fun hs => (hs.measured (.assert _ _ hseen)).touch _ _⟩

theorem heeds_noticeAll (hseen : a.Sober) (percepts : List (Atom (Extended exp))) :
    Heeds a (percepts.foldl notice a) := by
  induction percepts generalizing a with
  | nil => exact .refl a
  | cons percept percepts ih =>
    have hnotice := heeds_notice hseen percept
    exact hnotice.trans (ih (hnotice.sober hseen))

theorem heeds_perceive (hseen : a.Sober) (percepts : List (Atom (Extended exp))) :
    Heeds a (a.perceive percepts).2 := by
  have hnotice := heeds_noticeAll (a := { a with phase := .perceiving }) hseen percepts
  have hseen' := hnotice.sober hseen
  exact ⟨hnotice.config, hnotice.evaluator, fun hs => (hnotice.limited hs).measured (.assert _ _ hseen')⟩

theorem config_select [RandomSource ρ] (a : Agent ρ (Extended exp)) (actions : List (Atom (Extended exp))) :
    (a.select actions).2.config = a.config := by
  unfold select
  simp only
  split
  · rfl
  · split
    · rfl
    · split <;> rfl

theorem heeds_select [RandomSource ρ] (ha : a.evaluator.registry.Abides (Space.Operation .measured))
    (actions : List (Atom (Extended exp))) : Heeds a (a.select actions).2 :=
  .of_follows (follows_select .query ha actions) (a.config_select actions)

/-- The evidence for what is learned is one more than that for a stored rule, or the first. -/
theorem heeds_learn (ha : a.evaluator.registry.Abides (Space.Operation .measured)) (state action next : Atom (Extended exp))
    (reward : Extended exp) : Heeds a (a.learn state action next reward).2 := by
  unfold learn
  simp only
  refine ⟨rfl, rfl, fun hs => ?_⟩
  -- the transition counts once more, and the rules about the action are read before stale ones go
  have hone : (1.0 : Extended exp) ≠ infinity := Extended.one_eq.trans_ne nofun
  have hobserved : (Truth.observed 1.0 : Truth (Extended exp)).count ≠ infinity :=
    fun h => hone (Truth.count_ofEvidence_eq_infinity_iff.1 h)
  have hrules := (hs.measured (.assert _ (.expr [.symbol "Implies", .expr [.symbol "Seq", state, action], next])
    hobserved)).steps (Evaluator.utilityRules_abides .query ha action _)
  refine ((hrules.steps (removeAll_abides (fun s _ => .remove s trivial) _ _)).measured (.assert _ _ fun h => ?_)).touch _ _
  rcases Extended.infinity_of_add (Truth.count_ofEvidence_eq_infinity_iff.1 h) with h | h
  · exact hrules.count_known_ne _ h
  · exact hone h

theorem heeds_meets (a : Agent ρ (Extended exp)) (goal : Option (Atom (Extended exp))) :
    Heeds a (a.meets goal).2 :=
  .of_follows (follows_meets .query a goal) (by cases goal <;> rfl)

theorem routine_heeds [RandomSource ρ] : Routine fun a b : Agent ρ (Extended exp) =>
    a.evaluator.registry.Abides (Space.Operation .measured) → a.Sober → Heeds a b where
  trans hab hbc ha hseen :=
    (hab ha hseen).trans (hbc ((hab ha hseen).evaluator ▸ ha) ((hab ha hseen).sober hseen))
  phase _ _ _ _ := ⟨rfl, rfl, id⟩
  perceive _ percepts _ hseen := heeds_perceive hseen percepts
  select _ actions ha _ := heeds_select ha actions
  learn _ state action next reward ha _ := heeds_learn ha state action next reward
  meets a goal _ _ := heeds_meets a goal

end Agent

/-! ## Uses -/

namespace Space

variable {s t : Space (Extended exp)}

/-- A use that is given no infinite evidence brings none about. -/
theorem UseBy.believes (h : UseBy .measured s t) (hs : s.Believes Truth.Limited) : t.Believes Truth.Limited := by
  cases h with
  | step h => exact hs.measured h
  | eval he a depth => exact hs.steps (Evaluator.eval_abides .query he a depth s)
  | program he text => exact hs.steps (Evaluator.runProgram_abides .add .query he text s)
  | perceive hseen percepts => exact (Agent.heeds_perceive hseen percepts).limited hs
  | select ha actions => exact (Agent.heeds_select ha actions).limited hs
  | learn ha state action next reward => exact (Agent.heeds_learn ha state action next reward).limited hs
  | cycle ha hseen w => exact (Agent.routine_heeds.step _ w ha hseen).limited hs
  | run ha hseen w goal maxCycles =>
    exact (Agent.routine_heeds.runWithin goal maxCycles _ _ w ha hseen).limited hs

theorem believes_of_measured {config : SpaceConfig (Extended exp)} (h : UsesBy .measured (empty config) s) :
    s.Believes Truth.Limited := by
  induction h with
  | refl => exact believes_empty Truth.limited_unknown config
  | tail _ h ih => exact h.believes ih

/-! ## Queries -/

/-- What is stored is weighed, queries compare weights with the floor, and rank by weights. -/
structure Weighed (s : Space (Extended exp)) : Prop where
  stored : ∀ key a t, s.fact? key = some (a, t) → t.Weighs
  found : ∀ pattern, ∀ m ∈ (s.query pattern).1, ∃ key t, s.fact? key = some (m.atom, t) ∧ m.score = t.score ∧
    Scalar.InUnit m.score ∧
    (s.config.minConfidence ≠ nan → Scalar.le s.config.minConfidence t.confidence = true)
  ranked : ∀ pattern, (s.query pattern).1.Pairwise fun m n => Scalar.le n.score m.score = true

theorem Believes.weighed (hs : s.Believes Truth.Limited) : s.Weighed := by
  have hstored (key : String) (a : Atom (Extended exp)) (t : Truth (Extended exp))
      (h : s.fact? key = some (a, t)) : t.Weighs :=
    (hs.of_fact? h).inRange.weighs (hs.of_fact? h).count
  have hfound (pattern : Atom (Extended exp)) (m : Match (Extended exp)) (hm : m ∈ (s.query pattern).1) :
      ∃ key t, s.fact? key = some (m.atom, t) ∧ m.score = t.score ∧ Scalar.InUnit m.score ∧
        (s.config.minConfidence ≠ nan → Scalar.le s.config.minConfidence t.confidence = true) := by
    obtain ⟨key, t, n, hfinds⟩ := exists_finds_of_mem_query hm
    have ht := hstored key _ t hfinds.fact
    refine ⟨key, t, hfinds.fact, hfinds.score, hfinds.score ▸ ht.score, fun hfloor => ?_⟩
    exact Extended.le_of_lt_eq_false (Extended.ne_nan_of_inUnit ht.confidence) hfloor hfinds.confident
  have hnumber (pattern : Atom (Extended exp)) (m : Match (Extended exp)) (hm : m ∈ (s.query pattern).1) :
      m.score ≠ nan := by
    obtain ⟨-, -, -, -, hunit, -⟩ := hfound pattern m hm
    exact Extended.ne_nan_of_inUnit hunit
  refine ⟨hstored, hfound, fun pattern => ?_⟩
  have hsorted : (s.query pattern).1.Pairwise fun m n => Scalar.rankLE n.score m.score = true := by
    rw [query_fst]
    exact (Ranked.descending Match.score _).sublist (List.take_sublist _ _)
  refine hsorted.imp_of_mem fun hm hn hle => ?_
  exact Extended.le_of_lt_eq_false (hnumber pattern _ hm) (hnumber pattern _ hn) (Ranked.not_lt _ _ hle)

end Space

/-! ## Weights -/

/-- The strength of a truth that is made and merged, and of one that is stored, is always a number from zero to
one. Confidence and score are, too, unless the count is infinite; then they are undefined, and there is no floor
that the confidence is below. In a merger the count is infinite if that of one of its parts is. In a space it is
finite, whatever is done to it, as long as no infinite evidence is given: then all that a query compares with
its floor and ranks by are weights. -/
theorem Truth.weighs_unless_infinite :
    (∀ b : Bracketing (Extended exp × Extended exp),
      let t := (b.map fun e => ofEvidence e.1 e.2).merged
      t.Graded ∧ (t.count = infinity ↔ ∃ e ∈ b.elements, e.2 = infinity)) ∧
    (∀ config s, Space.UsesBy .tempered (Space.empty config) s →
      ∀ key (a : Atom (Extended exp)) t, s.fact? key = some (a, t) → t.Graded) ∧
    ∀ config (s : Space (Extended exp)), Space.UsesBy .measured (Space.empty config) s → s.Weighed := by
  refine ⟨fun b => ?_, fun config s hs key a t ht => ?_, fun config s hs => (Space.believes_of_measured hs).weighed⟩
  · have hrange : ∀ t ∈ (b.map fun e => ofEvidence e.1 e.2).elements, t.InRange := by
      rw [Bracketing.elements_map]
      exact List.forall_mem_map.2 fun e _ => Made.inRange ⟨e.1, e.2, rfl⟩
    obtain ⟨hmerged, hcount⟩ := Bracketing.merged_spec hrange
    refine ⟨hmerged.graded, hcount.trans ?_⟩
    rw [Bracketing.elements_map]
    simp only [List.mem_map, exists_exists_and_eq_and, count_ofEvidence_eq_infinity_iff]
  · have hbelieves := hs.keeps Space.conduct_tempered (fun _ _ hs hstep => hs.tempered hstep)
      (Space.believes_empty unknown_inRange config)
    exact (hbelieves.of_fact? ht).graded

/-- An agent that knows nothing yet. -/
def Agent.watcher : Agent SplitMix (Extended fun _ => 1) where
  config := default
  evaluator := { config := default, registry := .standard }
  space := Space.empty default
  random := {}

/-- A configuration that asks for more confidence than there is. -/
def SpaceConfig.demanding : SpaceConfig (Extended fun _ => 1) :=
  { (default : SpaceConfig (Extended fun _ => 1)) with minConfidence := finite (3 / 2) }

/-- A space of that configuration, where the sun is known by infinite evidence. -/
def Space.glaring : Space (Extended fun _ => 1) :=
  ((Space.empty .demanding).assert (.symbol "sun") (.ofEvidence 1 infinity)).2

theorem Space.fact?_glaring : Space.glaring.fact? "sun" = some (.symbol "sun", ⟨0.5, infinity⟩) := by
  have hnew : (Space.empty .demanding).fact? "sun" = none := Space.fact?_eq_none_iff.2 (by decide +kernel)
  have hendless : (Truth.ofEvidence 1 infinity : Truth (Extended fun _ => 1)).count = infinity :=
    Truth.count_ofEvidence_eq_infinity_iff.2 rfl
  rw [Space.glaring, Space.fact?_assert (Space.filed_empty _), if_pos (by rfl), hnew, Option.getD_none]
  simp only [Truth.merge_of_infinity Truth.unknown_inRange (Truth.Made.inRange ⟨_, _, rfl⟩) (.inr hendless)]
  rfl

/-- Out of range or undefined, what evidence is made of still makes weights. All that an agent knows after a
cycle in a chain is weighed, and of what is known by infinite evidence the strength is a weight. -/
theorem Truth.weighs_unless_infinite_watched :
    ((ofEvidence (finite 5) (finite 3)).merge ((ofEvidence nan .negInfinity).merge
      (ofEvidence (finite (-1)) nan)) : Truth (Extended fun _ => 1)).Weighs ∧
    Space.Weighed (Agent.watcher.step (ChainWorld.threeStates : ChainWorld (Extended fun _ => 1))).2.1.space ∧
    Space.glaring.fact? "sun" = some (.symbol "sun", ⟨0.5, infinity⟩) ∧
    (⟨0.5, infinity⟩ : Truth (Extended fun _ => 1)).Graded := by
  obtain ⟨hmerged, hstored, hmeasured⟩ := @weighs_unless_infinite fun _ => 1
  have hstandard : Agent.watcher.evaluator.registry.Abides (Space.Operation .measured) := Registry.abides_standard .query
  have huses : Space.UsesBy .tempered (Space.empty .demanding) Space.glaring := .single (.step (.assert _ _ trivial))
  have hbracket := hmerged (.pair (.single (finite 5, finite 3))
    (.pair (.single (nan, .negInfinity)) (.single (finite (-1), nan))))
  have hseen : Agent.watcher.Sober := fun h => absurd (Truth.count_ofEvidence_eq_infinity_iff.1 h) (by decide)
  have hcycle := Space.UseBy.cycle hstandard hseen (ChainWorld.threeStates : ChainWorld (Extended fun _ => 1))
  refine ⟨hbracket.1.weighs_iff.2 fun h => ?_, hmeasured default _ (.single hcycle), Space.fact?_glaring,
    hstored _ _ huses _ _ _ Space.fact?_glaring⟩
  exact absurd (hbracket.2.1 h) (by decide +kernel)

/-- Infinite evidence has no confidence. It passes a floor that is above every weight, and its match is ranked
by an undefined score. -/
theorem Truth.weighs_fails_glaring :
    (¬ ∀ strength count : Extended fun _ => 1, (Truth.ofEvidence strength count).Weighs) ∧
      (Space.glaring.query (.symbol "sun")).1.map Match.score = [nan] := by
  have hkeys : (Space.glaring.candidates (.symbol "sun")).take Space.glaring.config.maxCandidates = ["sun"] := by
    decide +kernel
  have hconfidence : Scalar.lt (⟨0.5, infinity⟩ : Truth (Extended fun _ => 1)).confidence
      Space.glaring.config.minConfidence = false := rfl
  have hhits : Space.glaring.hits (.symbol "sun") = [{ atom := .symbol "sun", bindings := ∅, score := nan }] := by
    rw [Space.hits, hkeys, Space.examineAll_cons, Space.examine_self Space.fact?_glaring rfl hconfidence]
    rfl
  have hanswer := Space.glaring.perm_query (.symbol "sun") (by rw [hhits]; decide +kernel)
  rw [hhits, List.perm_singleton] at hanswer
  refine ⟨fun h => ?_, by rw [hanswer]; rfl⟩
  exact absurd (h 1 infinity).confidence (by decide +kernel)

end Atomspace
