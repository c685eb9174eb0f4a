import Atomspace.Proofs.Histories
import Atomspace.World.Chain
/-!
# Learning a chain

An agent that walks a chain in which every link earns something and staying earns nothing learns just
that: as soon as one of its runs has come to the end, moving on has a positive utility in every state but
the last, and staying has none (`Agent.utility_train`). How it explores, what it draws and when its runs
stop makes no difference.

The only rules in its space are about the actions of the chain, at most two for each state, so they are
never too many for a query (`Acquainted.admits`).
-/

namespace Atomspace

namespace ChainWorld

section
variable {ν : Type}

/-- To move on from one place to another. -/
def move (source target : Atom ν) : Atom ν :=
  .expr [.symbol "Move", source, target]

/-- To stay in a place. -/
def stay (place : Atom ν) : Atom ν :=
  .expr [.symbol "Stay", place]

/-- The actions on the way through some places. -/
def repertoire (places : List (Atom ν)) : List (Atom ν) :=
  (places.zip places.tail).flatMap fun e => [move e.1 e.2, stay e.1]

theorem length_repertoire_le (places : List (Atom ν)) : (repertoire places).length ≤ 2 * places.length := by
  rw [repertoire, List.length_flatMap]
  simp only [List.length_cons, List.length_nil, List.map_const', List.sum_replicate, List.length_zip]
  simp
  omega

theorem mem_repertoire {places : List (Atom ν)} {i : Nat} {source target : Atom ν}
    (hsource : places[i]? = some source) (htarget : places[i + 1]? = some target) :
    move source target ∈ repertoire places ∧ stay source ∈ repertoire places := by
  have hmem : (source, target) ∈ places.zip places.tail := by
    refine List.mem_iff_getElem?.2 ⟨i, ?_⟩
    rw [List.getElem?_zip_eq_some]
    exact ⟨hsource, by rwa [List.getElem?_tail]⟩
  constructor
  · exact List.mem_flatMap.2 ⟨_, hmem, List.mem_cons_self⟩
  · exact List.mem_flatMap.2 ⟨_, hmem, List.mem_cons_of_mem _ List.mem_cons_self⟩

/-- An action of the chain moves on or stays, and it is made of places. -/
theorem repertoire_cases {places : List (Atom ν)} {c : Atom ν} (h : c ∈ repertoire places) :
    ∃ source target, source ∈ places ∧ target ∈ places ∧ (c = move source target ∨ c = stay source) := by
  obtain ⟨⟨source, target⟩, hmem, hc⟩ := List.mem_flatMap.1 h
  obtain ⟨hsource, htarget⟩ := List.of_mem_zip hmem
  refine ⟨source, target, hsource, List.mem_of_mem_tail htarget, ?_⟩
  simpa using hc

theorem lt_length_of_running {w : ChainWorld ν} (h : w.isRunning = true) : w.position + 1 < w.states.length := by
  simpa [isRunning] using h

theorem mem_actions {w : ChainWorld ν} {c : Atom ν} (h : c ∈ w.actions) :
    ∃ source target, w.states[w.position]? = some source ∧ w.states[w.position + 1]? = some target ∧
      (c = move source target ∨ c = stay source) := by
  unfold actions at h
  split at h
  · rename_i hrunning
    have hnext := lt_length_of_running hrunning
    refine ⟨w.states[w.position], w.states[w.position + 1], List.getElem?_eq_getElem _,
      List.getElem?_eq_getElem _, ?_⟩
    have hhere : w.states[w.position]? = some w.states[w.position] := List.getElem?_eq_getElem _
    simpa [moveAction?, stayAction?, hhere, List.getElem?_eq_getElem hnext, move, stay] using h
  · cases h

theorem length_le_of_stopped {w : ChainWorld ν} (h : (!w.isRunning) = true) : w.states.length ≤ w.position + 1 := by
  simpa [isRunning] using h

theorem moveAction?_eq {w : ChainWorld ν} {i : Nat} {source target : Atom ν}
    (hsource : w.states[i]? = some source) (htarget : w.states[i + 1]? = some target) :
    w.moveAction? i = some (move source target) := by
  simp [moveAction?, hsource, htarget, move]

theorem stayAction?_eq {w : ChainWorld ν} {i : Nat} {source : Atom ν} (hsource : w.states[i]? = some source) :
    w.stayAction? i = some (stay source) := by
  simp [stayAction?, hsource, stay]

variable [Scalar ν]

theorem key_move_ne (source target place : Atom ν) : (move source target).key ≠ (stay place).key := by
  intro h
  have hlist := congrArg String.toList h
  simp [move, stay, Atom.key, Atom.keys] at hlist

/-- What an action does depends on the actions of the place alone. -/
theorem execute_eq (w : ChainWorld ν) (c : Atom ν) : w.execute c =
    if w.moveAction? w.position == some c then
      (w.rewards[w.position]?.getD 0.0, { w with position := w.position + 1, steps := w.steps + 1 })
    else if w.stayAction? w.position == some c then (w.stayReward, { w with steps := w.steps + 1 })
    else (0.0, { w with steps := w.steps + 1 }) :=
  rfl

theorem some_beq_some (c : Atom ν) : (some c == some c) = true :=
  Atom.beq_self c

theorem moveAction?_beq_stay (w : ChainWorld ν) (i : Nat) (place : Atom ν) :
    (w.moveAction? i == some (stay place)) = false := by
  cases h : w.moveAction? i with
  | none => rfl
  | some c =>
    obtain ⟨source, -, h⟩ := Option.bind_eq_some_iff.1 h
    obtain ⟨target, -, ⟨⟩⟩ := Option.bind_eq_some_iff.1 h
    refine Bool.eq_false_iff.2 fun h => key_move_ne source target place ?_
    exact ((Atom.beq_iff (move source target) (stay place)).1 h).2

/-- To move on earns the reward of the link and leads one place further. -/
theorem execute_move {w : ChainWorld ν} {source target : Atom ν} (hsource : w.states[w.position]? = some source)
    (htarget : w.states[w.position + 1]? = some target) : w.execute (move source target) =
      (w.rewards[w.position]?.getD 0.0, { w with position := w.position + 1, steps := w.steps + 1 }) := by
  rw [execute_eq, moveAction?_eq hsource htarget, if_pos (some_beq_some _)]

/-- To stay earns the reward of staying. -/
theorem execute_stay {w : ChainWorld ν} {place : Atom ν} (hplace : w.states[w.position]? = some place) :
    w.execute (stay place) = (w.stayReward, { w with steps := w.steps + 1 }) := by
  rw [execute_eq, moveAction?_beq_stay, if_neg Bool.false_ne_true, stayAction?_eq hplace,
    if_pos (some_beq_some _)]

end

variable {exp : Rat → Rat}

/-- The sign of a utility or a reward is the one that the action deserves. -/
inductive Fair : Atom (Exact exp) → Rat → Prop
  | move {source target : Atom (Exact exp)} {u : Rat} : 0 < u → Fair (ChainWorld.move source target) u
  | stay {place : Atom (Exact exp)} {u : Rat} : u ≤ 0 → Fair (ChainWorld.stay place) u

theorem fair_move_iff {source target : Atom (Exact exp)} {u : Rat} :
    Fair (ChainWorld.move source target) u ↔ 0 < u := by
  refine ⟨fun h => ?_, .move⟩
  generalize hc : ChainWorld.move source target = c at h
  cases h with
  | move h => exact h
  | stay h => exact absurd (congrArg Atom.key hc) (key_move_ne source target _)

theorem fair_stay_iff {place : Atom (Exact exp)} {u : Rat} : Fair (ChainWorld.stay place) u ↔ u ≤ 0 := by
  refine ⟨fun h => ?_, .stay⟩
  generalize hc : ChainWorld.stay place = c at h
  cases h with
  | move h => exact absurd (congrArg Atom.key hc.symm) (key_move_ne _ _ place)
  | stay h => exact h

theorem Fair.of_key {c d : Atom (Exact exp)} {u : Rat} {places : List (Atom (Exact exp))} (h : Fair c u)
    (hd : d ∈ repertoire places) (hkey : d.key = c.key) : Fair d u := by
  obtain ⟨source, target, -, -, rfl | rfl⟩ := repertoire_cases hd
  · cases h with
    | move h => exact .move h
    | stay h => exact absurd hkey (key_move_ne source target _)
  · cases h with
    | move h => exact absurd hkey.symm (key_move_ne _ _ source)
    | stay h => exact .stay h

/-- With a fair reward what is known gets no less fair. -/
theorem Fair.improved {c : Atom (Exact exp)} {known : Option (Rat × Nat)} {rate reward : Rat}
    (hrate : 0 < rate ∧ rate ≤ 1) (hreward : Fair c reward) (hknown : ∀ u k, known = some (u, k) → Fair c u) :
    Fair c (Agent.improved rate reward known).1 := by
  have hmoved (u : Rat) : u + rate * (reward - u) = (1 - rate) * u + rate * reward := by ring
  have hrest : 0 ≤ 1 - rate := sub_nonneg.2 hrate.2
  cases known with
  | none =>
    show Fair c (0 + rate * (reward - 0))
    rw [hmoved, mul_zero, zero_add]
    cases hreward with
    | move h => exact .move (mul_pos hrate.1 h)
    | stay h => exact .stay (mul_nonpos_of_nonneg_of_nonpos hrate.1.le h)
  | some known =>
    obtain ⟨u, k⟩ := known
    show Fair c (u + rate * (reward - u))
    rw [hmoved]
    have hold := hknown u k rfl
    cases hreward with
    | move h =>
      have hold := fair_move_iff.1 hold
      exact .move (add_pos_of_nonneg_of_pos (mul_nonneg hrest hold.le) (mul_pos hrate.1 h))
    | stay h =>
      have hold := fair_stay_iff.1 hold
      exact .stay (add_nonpos (mul_nonpos_of_nonneg_of_nonpos hrest hold)
        (mul_nonpos_of_nonneg_of_nonpos hrate.1.le h))

/-- A chain of symbols in which every link earns something and staying earns nothing. -/
structure Rewarding (w : ChainWorld (Exact exp)) : Prop where
  symbols : ∀ place ∈ w.states, ∃ name, place = .symbol name
  links : ∀ i, i + 1 < w.states.length → ∃ r, w.rewards[i]? = some r ∧ 0 < r.value
  stay : w.stayReward.value ≤ 0

theorem rewarding_ofNames {names : List String} {rewards : List (Exact exp)} {stay : Exact exp}
    (hlinks : ∀ i, i + 1 < names.length → ∃ r, rewards[i]? = some r ∧ 0 < r.value) (hstay : stay.value ≤ 0) :
    (ofNames names rewards stay).Rewarding := by
  refine ⟨fun place hplace => ?_, fun i hi => ?_, hstay⟩
  · obtain ⟨name, -, rfl⟩ := List.mem_map.1 hplace
    exact ⟨name, rfl⟩
  · have hi : i + 1 < names.length := by simpa [ofNames] using hi
    obtain ⟨r, hr, hpos⟩ := hlinks i hi
    refine ⟨r, ?_, hpos⟩
    have hlt : i < (rewards.take (names.length - 1)).length := by
      rw [List.length_take]
      exact lt_min (by omega) (List.getElem?_eq_some_iff.1 hr).1
    show (rewards.take (names.length - 1) ++ _)[i]? = some r
    rw [List.getElem?_append_left hlt, List.getElem?_take_of_lt (by omega), hr]

theorem Rewarding.of_reset {w v : ChainWorld (Exact exp)} (h : w.Rewarding) (hreset : v.reset = w.reset) :
    v.Rewarding := by
  have hstates : v.states = w.states := (congrArg states hreset :)
  have hrewards : v.rewards = w.rewards := (congrArg rewards hreset :)
  have hstay : v.stayReward = w.stayReward := (congrArg stayReward hreset :)
  exact ⟨hstates ▸ h.symbols, hstates ▸ hrewards ▸ h.links, hstay ▸ h.stay⟩

/-- An action on offer earns what it deserves. To stay leaves the world where it is, and to move on leads
one place further. -/
theorem execute_of_mem_actions {w : ChainWorld (Exact exp)} (hw : w.Rewarding) {c : Atom (Exact exp)}
    (hc : c ∈ w.actions) :
    Fair c (w.execute c).1.value ∧ (w.execute c).2.reset = w.reset ∧
      ((w.execute c).2.position = w.position ∨ ∃ source target, c = move source target ∧
        w.states[w.position]? = some source ∧ w.states[w.position + 1]? = some target ∧
          (w.execute c).2.position = w.position + 1) := by
  obtain ⟨source, target, hsource, htarget, rfl | rfl⟩ := mem_actions hc
  · obtain ⟨r, hr, hpos⟩ := hw.links w.position (List.getElem?_eq_some_iff.1 htarget).1
    rw [execute_move hsource htarget, hr]
    exact ⟨.move hpos, rfl, .inr ⟨_, _, rfl, hsource, htarget, rfl⟩⟩
  · rw [execute_stay hsource]
    exact ⟨.stay hw.stay, rfl, .inl rfl⟩

end ChainWorld

open ChainWorld (repertoire Fair Rewarding)

/-! ## Spaces that know a chain -/

namespace Space

variable {exp : Rat → Rat} {s t : Space (Exact exp)} {places : List (Atom (Exact exp))} {p : Nat}

open Evaluator (utilityPattern Aside)

/-- What a space knows of the actions of a chain is fair, and of moving on from the first places it knows
something. It has no rules about anything else. -/
structure Acquainted (s : Space (Exact exp)) (places : List (Atom (Exact exp))) (p : Nat) : Prop where
  reachable : s.Reachable
  confidence : s.config.minConfidence.value ≤ 1 / 2
  results : 1 ≤ s.config.maxResults
  candidates : 2 * places.length ≤ s.config.maxCandidates
  knows : ∀ c ∈ repertoire places, ∃ known, s.Knows c known ∧ ∀ u k, known = some (u, k) → Fair c u
  learned : ∀ i < p, ∀ source target, places[i]? = some source → places[i + 1]? = some target →
    ∃ u k, s.Knows (ChainWorld.move source target) (some (u, k))
  rules : s.RulesAbout (repertoire places)

theorem Acquainted.length_candidates_le (h : s.Acquainted places p) (a : Atom (Exact exp)) :
    (s.candidates (utilityPattern a)).length ≤ (repertoire places).length :=
  h.rules.length_candidates_le h.reachable.filed h.reachable.distinct
    (fun c hc => (h.knows c hc).imp fun _ hknown => hknown.1) a

theorem Acquainted.admits (h : s.Acquainted places p) (c : Atom (Exact exp)) (known : Option (Rat × Nat)) :
    s.Admits c known :=
  ⟨h.confidence, (h.length_candidates_le c).trans
    ((ChainWorld.length_repertoire_le places).trans h.candidates), fun _ => h.results⟩

/-- Reading changes nothing that is known. -/
theorem Acquainted.read (h : s.Acquainted places p) (hread : Read s t) (ht : t.Reachable) :
    t.Acquainted places p where
  reachable := ht
  confidence := hread.config ▸ h.confidence
  results := hread.config ▸ h.results
  candidates := hread.config ▸ h.candidates
  knows c hc := by
    obtain ⟨known, hknows, hfair⟩ := h.knows c hc
    exact ⟨known, hknows.read hread, hfair⟩
  learned i hi source target hsource htarget := by
    obtain ⟨u, k, hknows⟩ := h.learned i hi source target hsource htarget
    exact ⟨u, k, hknows.read hread⟩
  rules := h.rules.read hread

theorem Acquainted.query (h : s.Acquainted places p) (pattern : Atom (Exact exp)) :
    (s.query pattern).2.Acquainted places p :=
  h.read (s.read_query pattern) (h.reachable.step (.query s pattern))

theorem Acquainted.boost (h : s.Acquainted places p) (a : Atom (Exact exp)) (amount : Exact exp) :
    (s.boost a amount).2.Acquainted places p :=
  h.read (read_touch ..) (h.reachable.step (.boost s a amount))

/-- So does storing something else than a rule. -/
theorem Acquainted.assert_aside (h : s.Acquainted places p) {x : Atom (Exact exp)} (hx : Aside x)
    (truth : Truth (Exact exp)) : (s.assert x truth).2.Acquainted places p where
  reachable := h.reachable.step (.assert s x truth)
  confidence := s.config_assert x truth ▸ h.confidence
  results := s.config_assert x truth ▸ h.results
  candidates := s.config_assert x truth ▸ h.candidates
  knows c hc := by
    obtain ⟨known, hknows, hfair⟩ := h.knows c hc
    exact ⟨known, hknows.assert_aside h.reachable.filed hx truth, hfair⟩
  learned i hi source target hsource htarget := by
    obtain ⟨u, k, hknows⟩ := h.learned i hi source target hsource htarget
    exact ⟨u, k, hknows.assert_aside h.reachable.filed hx truth⟩
  rules := h.rules.assert_aside hx truth

/-- Nothing is known in an empty space. -/
theorem acquainted_empty {config : SpaceConfig (Exact exp)} (hconfidence : config.minConfidence.value ≤ 1 / 2)
    (hresults : 1 ≤ config.maxResults) (hcandidates : 2 * places.length ≤ config.maxCandidates) :
    (empty config).Acquainted places 0 where
  reachable := ⟨config, .refl⟩
  confidence := (config_empty config).symm ▸ hconfidence
  results := (config_empty config).symm ▸ hresults
  candidates := (config_empty config).symm ▸ hcandidates
  knows c _ := ⟨none, (Agent.genuine_empty config c).knows fun _ _ hb => Agent.not_meets_empty c hb, nofun⟩
  learned _ hi := absurd hi (Nat.not_lt_zero _)
  rules := rulesAbout_empty config _

end Space

namespace Agent

variable {ρ : Type} {exp : Rat → Rat} {a : Agent ρ (Exact exp)} {places : List (Atom (Exact exp))} {p : Nat}

open Space

/-- An agent that learns by some share of the way, and knows of a chain what its space does. -/
structure Walker (a : Agent ρ (Exact exp)) (places : List (Atom (Exact exp))) (p : Nat) : Prop where
  rate : 0 < a.config.learningRate.value ∧ a.config.learningRate.value ≤ 1
  space : a.space.Acquainted places p

theorem Walker.rest (h : a.Walker places p) (phase : Phase) : Agent.Walker { a with phase } places p :=
  ⟨h.rate, h.space⟩

theorem vars_of_mem_repertoire (hplaces : ∀ place ∈ places, ∃ name, place = .symbol name) {c : Atom (Exact exp)}
    (hc : c ∈ repertoire places) : c.vars = [] := by
  obtain ⟨source, target, hsource, htarget, hc⟩ := ChainWorld.repertoire_cases hc
  obtain ⟨_, rfl⟩ := hplaces source hsource
  obtain ⟨_, rfl⟩ := hplaces target htarget
  rcases hc with rfl | rfl <;> rfl

section
variable (hplaces : ∀ place ∈ places, ∃ name, place = .symbol name)
include hplaces

/-- A fair reward leaves all that is known fair. -/
theorem Walker.learn (h : a.Walker places p) {c : Atom (Exact exp)} (hc : c ∈ repertoire places)
    {reward : Exact exp} (hreward : Fair c reward.value) (state next : Atom (Exact exp)) :
    (a.learn state c next reward).2.Walker places p ∧
      ∃ u k, (a.learn state c next reward).2.space.Knows c (some (u, k)) := by
  obtain ⟨known, hknows, hfair⟩ := h.space.knows c hc
  have hs := h.space.reachable
  have hadmits := h.space.admits c known
  have hground := vars_of_mem_repertoire hplaces hc
  have hconfig := config_learn hs hknows hadmits hground state next reward
  have hknown {d : Atom (Exact exp)} {known' : Option (Rat × Nat)} (hd : d ∈ repertoire places)
      (hknows' : a.space.Knows d known') :=
    knows_learn hs hknows hadmits hground state next reward (vars_of_mem_repertoire hplaces hd) hknows'
  have hlearned := hknown hc hknows
  rw [if_pos rfl] at hlearned
  refine ⟨⟨?_, ?_⟩, _, _, hlearned⟩
  · rw [agent_config_learn hs hknows hadmits hground]
    exact h.rate
  · refine ⟨reachable_learn hs hknows hadmits hground state next reward, ?_, ?_, ?_, ?_, ?_, ?_⟩
    · rw [hconfig]
      exact h.space.confidence
    · rw [hconfig]
      exact h.space.results
    · rw [hconfig]
      exact h.space.candidates
    · intro d hd
      obtain ⟨known', hknows', hfair'⟩ := h.space.knows d hd
      refine ⟨_, hknown hd hknows', ?_⟩
      split
      · rename_i hkey
        rintro _ _ ⟨⟩
        exact (Fair.improved h.rate hreward hfair).of_key hd hkey
      · exact hfair'
    · intro i hi source target hsource htarget
      obtain ⟨u, k, hknows'⟩ := h.space.learned i hi source target hsource htarget
      have hnow := hknown (ChainWorld.mem_repertoire hsource htarget).1 hknows'
      split at hnow <;> exact ⟨_, _, hnow⟩
    · exact rulesAbout_learn hs hknows hadmits hground state next reward h.space.rules hc

/-- Reading a utility gives what is known. -/
theorem Walker.utility_eq (h : a.Walker places p) {c : Atom (Exact exp)} (hc : c ∈ repertoire places)
    {known : Option (Rat × Nat)} (hknows : a.space.Knows c known) (e : Evaluator (Exact exp)) :
    e.utility c a.space = (known.map fun k => ⟨k.1⟩, (a.space.query (Evaluator.utilityPattern c)).2) :=
  e.utility_eq hknows h.space.reachable.filed h.space.reachable.distinct (vars_of_mem_repertoire hplaces hc)
    (h.space.admits c known)

/-! ## A cycle -/

theorem promising_acquainted (e : Evaluator (Exact exp)) (threshold : Exact exp) {actions : List (Atom (Exact exp))}
    (hactions : ∀ c ∈ actions, c ∈ repertoire places) : ∀ {s : Space (Exact exp)}, s.Acquainted places p →
      (e.promising threshold actions s).2.Acquainted places p ∧
        ∀ r ∈ (e.promising threshold actions s).1, r.1 ∈ actions := by
  induction actions with
  | nil => exact fun h => ⟨h, nofun⟩
  | cons c actions ih =>
    intro s h
    obtain ⟨hc, hactions⟩ := List.forall_mem_cons.1 hactions
    obtain ⟨known, hknows, -⟩ := h.knows c hc
    have hutility := e.utility_eq hknows h.reachable.filed h.reachable.distinct
      (vars_of_mem_repertoire hplaces hc) (h.admits c known)
    obtain ⟨hspace, hmem⟩ := ih hactions (h.query (Evaluator.utilityPattern c))
    unfold Evaluator.promising
    simp only [hutility]
    refine ⟨hspace, fun r hr => ?_⟩
    rcases List.mem_append.1 hr with hr | hr
    · simp only [Option.mem_toList, Option.map_eq_some_iff] at hr
      obtain ⟨u, -, rfl⟩ := hr
      exact List.mem_cons_self
    · exact List.mem_cons_of_mem _ (hmem r hr)

variable [RandomSource ρ]

omit hplaces in
theorem Walker.pick (h : a.Walker places p) (choices : List (Atom (Exact exp))) :
    (a.pick choices).2.Walker places p ∧ ∀ c, (a.pick choices).1 = some c → c ∈ choices := by
  unfold Agent.pick
  generalize RandomSource.below choices.length a.random = draw
  exact ⟨⟨h.rate, h.space⟩, fun _ hc => List.mem_of_getElem? hc⟩

theorem Walker.select (h : a.Walker places p) {actions : List (Atom (Exact exp))}
    (hactions : ∀ c ∈ actions, c ∈ repertoire places) :
    (a.select actions).2.Walker places p ∧ ∀ c, (a.select actions).1 = some c → c ∈ actions := by
  unfold Agent.select
  simp only
  split
  · exact ⟨⟨h.rate, h.space⟩, nofun⟩
  · split
    · refine Walker.pick ?_ actions
      exact ⟨h.rate, h.space⟩
    · obtain ⟨hspace, hmem⟩ := promising_acquainted hplaces a.evaluator a.config.utilityThreshold hactions h.space
      split
      · refine Walker.pick ?_ actions
        exact ⟨h.rate, hspace⟩
      · rename_i only hsingle
        refine ⟨⟨h.rate, hspace⟩, ?_⟩
        rintro _ ⟨⟩
        have honly := List.mem_singleton_self only
        rw [← hsingle] at honly
        exact hmem _ (List.mem_filter.1 honly).1
      · refine (Walker.pick ?_ _).imp_right fun hchoices c hc => ?_
        · exact ⟨h.rate, hspace⟩
        · obtain ⟨r, hr, rfl⟩ := List.mem_map.1 (hchoices c hc)
          exact hmem r (List.mem_filter.1 hr).1

end

theorem aside_stateSymbol {ν : Type} [Scalar ν] (percepts : List (Atom ν)) :
    Evaluator.Aside (stateSymbol percepts) := by
  refine .symbol ?_
  rw [String.toList_append, show "State-".toList = 'S' :: "tate-".toList from rfl, List.cons_append,
    List.head?_cons]
  decide

theorem aside_of_mem_percepts {ν : Type} {w : ChainWorld ν} {x : Atom ν} (h : x ∈ w.percepts) :
    Evaluator.Aside x := by
  obtain ⟨place, -, rfl⟩ := List.mem_map.1 h
  exact .expr (show "At".toList = ['A', 't'] from rfl) (by decide)

theorem Walker.notice (h : a.Walker places p) {x : Atom (Exact exp)} (hx : Evaluator.Aside x) :
    (a.notice x).Walker places p :=
  ⟨h.rate, (h.space.assert_aside hx _).boost _ _⟩

theorem Walker.perceive (h : a.Walker places p) (percepts : List (Atom (Exact exp)))
    (hpercepts : ∀ x ∈ percepts, Evaluator.Aside x) : (a.perceive percepts).2.Walker places p := by
  have hnotice : ∀ b : Agent ρ (Exact exp), b.Walker places p →
      (percepts.foldl Agent.notice b).Walker places p := by
    clear h
    induction percepts with
    | nil => exact fun _ h => h
    | cons x percepts ih =>
      obtain ⟨hx, hpercepts⟩ := List.forall_mem_cons.1 hpercepts
      exact fun b h => ih hpercepts _ (h.notice hx)
  have hnoticed := hnotice { a with phase := .perceiving } ⟨h.rate, h.space⟩
  exact ⟨hnoticed.rate, hnoticed.space.assert_aside (aside_stateSymbol percepts) _⟩

/-- To have learned to move on from the next place is to know one place more. -/
theorem Walker.succ (h : a.Walker places p) {source target : Atom (Exact exp)} (hsource : places[p]? = some source)
    (htarget : places[p + 1]? = some target)
    (hknows : ∃ u k, a.space.Knows (ChainWorld.move source target) (some (u, k))) : a.Walker places (p + 1) where
  rate := h.rate
  space := { h.space with
    learned := by
      intro i hi x y hx hy
      rcases Nat.lt_succ_iff_lt_or_eq.1 hi with hi | rfl
      · exact h.space.learned i hi x y hx hy
      · rw [hsource] at hx
        rw [htarget] at hy
        cases hx
        cases hy
        exact hknows }

variable [RandomSource ρ] {w : ChainWorld (Exact exp)}

/-- In a cycle an agent learns to move on from where it stands, if it moves on. -/
theorem Walker.step (h : a.Walker w.states p) (hw : w.Rewarding) (hp : w.position ≤ p) :
    ∃ q, p ≤ q ∧ (a.step w).2.1.Walker w.states q ∧ (a.step w).2.2.reset = w.reset ∧
      (a.step w).2.2.position ≤ q := by
  have hoffered : ∀ c ∈ w.actions, c ∈ repertoire w.states := by
    intro c hc
    obtain ⟨source, target, hsource, htarget, rfl | rfl⟩ := ChainWorld.mem_actions hc
    · exact (ChainWorld.mem_repertoire hsource htarget).1
    · exact (ChainWorld.mem_repertoire hsource htarget).2
  have hperceived := h.perceive w.percepts fun _ => aside_of_mem_percepts
  rcases hperceive : a.perceive w.percepts with ⟨state, b⟩
  rw [hperceive] at hperceived
  obtain ⟨hselected, hchosen⟩ := hperceived.select hw.symbols hoffered
  rcases hselect : b.select w.actions with ⟨_ | c, d⟩
  · have hstep : a.step w = (.idle state, { d with phase := .idle }, w) := by
      unfold Agent.step World.percepts World.actions ChainWorld.instWorld
      simp only [hperceive, hselect]
    rw [hselect] at hselected
    rw [hstep]
    exact ⟨p, Nat.le_refl p, hselected.rest .idle, rfl, hp⟩
  · rw [hselect] at hselected hchosen
    have hc := hchosen c rfl
    obtain ⟨hfair, hreset, hposition⟩ := ChainWorld.execute_of_mem_actions hw hc
    rcases hexecute : w.execute c with ⟨reward, v⟩
    rw [hexecute] at hfair hreset hposition
    have hnext := hselected.perceive v.percepts fun _ => aside_of_mem_percepts
    rcases hperceive' : d.perceive v.percepts with ⟨next, e⟩
    rw [hperceive'] at hnext
    obtain ⟨hlearned, hknows⟩ := hnext.learn hw.symbols (hoffered c hc) hfair state next
    rcases hlearn : e.learn state c next reward with ⟨utility, f⟩
    simp only [hlearn] at hlearned hknows
    have hstep : a.step w = (.acted state c next reward utility, { f with phase := .idle }, v) := by
      unfold Agent.step World.percepts World.actions World.execute ChainWorld.instWorld
      simp only [hperceive, hselect, hexecute, hperceive', hlearn]
    rw [hstep]
    rcases hposition with hposition | ⟨source, target, rfl, hsource, htarget, hposition⟩
    · exact ⟨p, Nat.le_refl p, hlearned.rest .idle, hreset, hposition ▸ hp⟩
    · rcases Nat.lt_or_eq_of_le hp with hlt | heq
      · exact ⟨p, Nat.le_refl p, hlearned.rest .idle, hreset, hposition ▸ hlt⟩
      · rw [heq] at hsource htarget
        exact ⟨p + 1, Nat.le_succ p, (hlearned.succ hsource htarget hknows).rest .idle, hreset,
          (hposition.trans (heq ▸ rfl)).le⟩

/-! ## Runs -/

omit [RandomSource ρ] in
theorem Walker.meets (h : a.Walker places p) (goal : Option (Atom (Exact exp))) :
    (a.meets goal).2.Walker places p := by
  cases goal with
  | none => exact h
  | some g => exact ⟨h.rate, h.space.query g⟩

/-- In a run an agent learns to move on from all places that it leaves. If it stops because the episode is
over, these are all but the last. -/
theorem Walker.runWithin (goal : Option (Atom (Exact exp))) (cycles : Nat) :
    ∀ {a : Agent ρ (Exact exp)} {w : ChainWorld (Exact exp)} {p : Nat} (summary : RunSummary (Exact exp)),
      a.Walker w.states p → w.Rewarding → w.position ≤ p →
      ∃ q, p ≤ q ∧ (a.runWithin goal cycles summary w).2.1.Walker w.states q ∧
        (a.runWithin goal cycles summary w).2.2.reset = w.reset ∧
        ((a.runWithin goal cycles summary w).1.stop = .environmentStopped → w.states.length ≤ q + 1) := by
  induction cycles with
  | zero =>
    intro a w p summary h hw hp
    have hmet := h.meets goal
    unfold Agent.runWithin
    simp only
    split
    · exact ⟨p, Nat.le_refl p, hmet, rfl, by rintro ⟨⟩⟩
    · split
      · rename_i hstopped
        exact ⟨p, Nat.le_refl p, hmet, rfl, fun _ =>
          (ChainWorld.length_le_of_stopped hstopped).trans (Nat.succ_le_succ hp)⟩
      · exact ⟨p, Nat.le_refl p, hmet, rfl, by rintro ⟨⟩⟩
  | succ cycles ih =>
    intro a w p summary h hw hp
    have hmet := h.meets goal
    unfold Agent.runWithin
    simp only
    split
    · exact ⟨p, Nat.le_refl p, hmet, rfl, by rintro ⟨⟩⟩
    · split
      · rename_i hstopped
        exact ⟨p, Nat.le_refl p, hmet, rfl, fun _ =>
          (ChainWorld.length_le_of_stopped hstopped).trans (Nat.succ_le_succ hp)⟩
      · obtain ⟨q, hpq, hstep, hreset, hposition⟩ := hmet.step hw hp
        have hstates : ((a.meets goal).2.step w).2.2.states = w.states := (congrArg ChainWorld.states hreset :)
        rw [← hstates] at hstep
        obtain ⟨r, hqr, hrun, hreset', hstop⟩ := ih _ hstep (hw.of_reset hreset) hposition
        rw [hstates] at hrun hstop
        exact ⟨r, hpq.trans hqr, hrun, hreset'.trans hreset, hstop⟩

/-- Runs in a chain one after the other, each from the first place, with a goal and a number of cycles. The
answer is why they ended. -/
def train {ν : Type} [Scalar ν] (a : Agent ρ ν) (w : ChainWorld ν) :
    List (Option (Atom ν) × Nat) → List StopReason × Agent ρ ν
  | [] => ([], a)
  | (goal, maxCycles) :: runs =>
    let (summary, a, w) := a.run w.reset goal maxCycles
    let (reasons, a) := a.train w runs
    (summary.stop :: reasons, a)

theorem train_cons {ν : Type} [Scalar ν] (a : Agent ρ ν) (w : ChainWorld ν) (goal : Option (Atom ν))
    (maxCycles : Nat) (runs : List (Option (Atom ν) × Nat)) :
    a.train w ((goal, maxCycles) :: runs) =
      ((a.run w.reset goal maxCycles).1.stop ::
        ((a.run w.reset goal maxCycles).2.1.train (a.run w.reset goal maxCycles).2.2 runs).1,
        ((a.run w.reset goal maxCycles).2.1.train (a.run w.reset goal maxCycles).2.2 runs).2) :=
  rfl

theorem Walker.train (runs : List (Option (Atom (Exact exp)) × Nat)) :
    ∀ {a : Agent ρ (Exact exp)} {w : ChainWorld (Exact exp)} {p : Nat}, a.Walker w.states p → w.Rewarding →
      ∃ q, p ≤ q ∧ (a.train w runs).2.Walker w.states q ∧
        (.environmentStopped ∈ (a.train w runs).1 → w.states.length ≤ q + 1) := by
  induction runs with
  | nil => exact fun h _ => ⟨_, Nat.le_refl _, h, nofun⟩
  | cons run runs ih =>
    intro a w p h hw
    obtain ⟨goal, maxCycles⟩ := run
    obtain ⟨q, hpq, hrun, hreset, hstop⟩ := Walker.runWithin goal maxCycles (w := w.reset)
      { cycles := 0, idleCycles := 0, totalReward := 0.0, stop := .cycleBudget } h (hw.of_reset rfl) (Nat.zero_le p)
    rcases hran : a.run w.reset goal maxCycles with ⟨summary, b, v⟩
    unfold Agent.run at hran
    rw [hran] at hrun hreset hstop
    have hstates : v.states = w.states := (congrArg ChainWorld.states hreset :)
    have hb : b.Walker v.states q := by
      rw [hstates]
      exact hrun
    obtain ⟨r, hqr, htrain, hstop'⟩ := ih hb (hw.of_reset hreset)
    rw [hstates] at htrain hstop'
    have htrained : a.train w ((goal, maxCycles) :: runs) =
        (summary.stop :: (b.train v runs).1, (b.train v runs).2) := by
      rw [train_cons]
      unfold Agent.run
      rw [hran]
    rw [htrained]
    refine ⟨r, hpq.trans hqr, htrain, fun hmem => ?_⟩
    rcases List.mem_cons.1 hmem with hmem | hmem
    · exact (hstop hmem.symm).trans (Nat.succ_le_succ hqr)
    · exact hstop' hmem

/-- The agent learns the chain: after runs from the first place, at least one of which ended because the
episode was over, moving on has a positive utility in every place but the last, and staying there has
none or one that is not positive. -/
theorem utility_train {a : Agent ρ (Exact exp)} {config : SpaceConfig (Exact exp)} {names : List String}
    {rewards : List (Exact exp)} {stay : Exact exp} {runs : List (Option (Atom (Exact exp)) × Nat)}
    (hspace : a.space = .empty config) (hconfidence : config.minConfidence.value ≤ 1 / 2)
    (hresults : 1 ≤ config.maxResults) (hcandidates : 2 * names.length ≤ config.maxCandidates)
    (hrate : 0 < a.config.learningRate.value) (hrate' : a.config.learningRate.value ≤ 1)
    (hlinks : ∀ i, i + 1 < names.length → ∃ r, rewards[i]? = some r ∧ 0 < r.value) (hstay : stay.value ≤ 0)
    (hstop : .environmentStopped ∈ (a.train (.ofNames names rewards stay) runs).1) {i : Nat}
    {source target : String} (hsource : names[i]? = some source) (htarget : names[i + 1]? = some target) :
    let b := (a.train (.ofNames names rewards stay) runs).2
    (∃ u, (b.evaluator.utility (.expr [.symbol "Move", .symbol source, .symbol target]) b.space).1 = some u ∧
      0 < u.value) ∧
    ∀ u, (b.evaluator.utility (.expr [.symbol "Stay", .symbol source]) b.space).1 = some u → u.value ≤ 0 := by
  intro b
  have hw := ChainWorld.rewarding_ofNames hlinks hstay
  have hstart : a.Walker (ChainWorld.ofNames names rewards stay).states 0 := by
    refine ⟨⟨hrate, hrate'⟩, ?_⟩
    rw [hspace]
    exact acquainted_empty hconfidence hresults (by simpa [ChainWorld.ofNames] using hcandidates)
  obtain ⟨q, -, htrained, hlength⟩ := hstart.train runs hw
  have hi : i < q := by
    have hlength := hlength hstop
    have hnames : names.length ≤ q + 1 := by simpa [ChainWorld.ofNames] using hlength
    have hi := (List.getElem?_eq_some_iff.1 htarget).1
    omega
  have hsource : (ChainWorld.ofNames names rewards stay).states[i]? = some (.symbol source) := by
    simp [ChainWorld.ofNames, hsource]
  have htarget : (ChainWorld.ofNames names rewards stay).states[i + 1]? = some (.symbol target) := by
    simp [ChainWorld.ofNames, htarget]
  obtain ⟨hmove, hstays⟩ := ChainWorld.mem_repertoire hsource htarget
  constructor
  · obtain ⟨u, k, hknows⟩ := htrained.space.learned i hi _ _ hsource htarget
    obtain ⟨known, hknown, hfair⟩ := htrained.space.knows _ hmove
    rw [hknown.eq_of_key hknows rfl] at hfair
    have hutility := htrained.utility_eq hw.symbols hmove hknows b.evaluator
    exact ⟨⟨u⟩, congrArg Prod.fst hutility, ChainWorld.fair_move_iff.1 (hfair u k rfl)⟩
  · intro u hu
    obtain ⟨known, hknows, hfair⟩ := htrained.space.knows _ hstays
    have hutility := htrained.utility_eq hw.symbols hstays hknows b.evaluator
    have hknown : known.map (fun k => (⟨k.1⟩ : Exact exp)) = some u := (congrArg Prod.fst hutility).symm.trans hu
    obtain ⟨⟨v, k⟩, rfl, rfl⟩ := Option.map_eq_some_iff.1 hknown
    exact ChainWorld.fair_stay_iff.1 (hfair v k rfl)

/-- An agent that knows nothing and only explores. -/
def rambler : Agent SplitMix (Exact fun _ => 1) where
  config := { (default : AgentConfig (Exact fun _ => 1)) with exploration := 1 }
  evaluator := .usual
  space := .empty default
  random := { state := 6 }

/-- A chain in which a step on earns 1 and a stay costs 1 is done after three cycles, which earn 1 in all. So
one of them stayed where it was. -/
theorem run_rambler :
    let w : ChainWorld (Exact fun _ => 1) := .ofNames ["A", "B", "C"] [1, 1] ⟨-1⟩
    let summary := (rambler.run w.reset none 3).1
    summary.stop = .environmentStopped ∧ summary.cycles = 3 ∧ summary.totalReward.value = 1 := by
  decide +kernel

/-- After that it is known that both moves pay, and not that staying in the middle does. -/
theorem utility_train_rambler :
    let w : ChainWorld (Exact fun _ => 1) := .ofNames ["A", "B", "C"] [1, 1] ⟨-1⟩
    let b := (rambler.train w [(none, 3)]).2
    (∃ u, (b.evaluator.utility (.expr [.symbol "Move", .symbol "A", .symbol "B"]) b.space).1 = some u ∧
      0 < u.value) ∧
    (∃ u, (b.evaluator.utility (.expr [.symbol "Move", .symbol "B", .symbol "C"]) b.space).1 = some u ∧
      0 < u.value) ∧
    ∀ u, (b.evaluator.utility (.expr [.symbol "Stay", .symbol "B"]) b.space).1 = some u → u.value ≤ 0 := by
  have hlinks : ∀ i, i + 1 < ["A", "B", "C"].length →
      ∃ r, [(1 : Exact fun _ => 1), 1][i]? = some r ∧ 0 < r.value := by
    intro i hi
    have hlink : i = 0 ∨ i = 1 := by
      simp only [List.length_cons, List.length_nil] at hi
      omega
    rcases hlink with rfl | rfl <;> exact ⟨1, rfl, by decide +kernel⟩
  have hstop : .environmentStopped ∈
      (rambler.train (.ofNames ["A", "B", "C"] [1, 1] ⟨-1⟩) [(none, 3)]).1 := by
    rw [train_cons, run_rambler.1]
    exact List.mem_cons_self
  have hspace : rambler.space = .empty default := rfl
  have hlearned {i : Nat} {source target : String} (hsource : ["A", "B", "C"][i]? = some source)
      (htarget : ["A", "B", "C"][i + 1]? = some target) :=
    utility_train hspace (by decide +kernel) (by decide +kernel) (by decide +kernel) (by decide +kernel)
      (by decide +kernel) hlinks (by decide +kernel) hstop hsource htarget
  have hfirst := hlearned (i := 0) rfl rfl
  have hsecond := hlearned (i := 1) rfl rfl
  exact ⟨hfirst.1, hsecond⟩

end Agent

end Atomspace
