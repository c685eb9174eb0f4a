import Atomspace.Proofs.Chains
import Atomspace.Proofs.Choices
/-!
# Episodes in a chain

Whatever is done to a chain, it keeps its states and rewards, and it stands in one of its states
(`ChainWorld.Along`). What it does not offer earns nothing and leads nowhere, with one exception: to stay in
the last state is not on offer, and earns what staying earns (`ChainWorld.execute_of_not_offered`).

A run is some cycles, one after another, and a summary of what they came to
(`Agent.exists_tally_of_runWithin`). In a chain each of them moves on or stays (`ChainWorld.Along.step`). So
an episode that has come to its end has earned each link once, and staying as often as the agent stayed
(`ChainWorld.finished_run`).
-/

namespace Atomspace

namespace ChainWorld

section
variable {ν : Type} [Scalar ν] {names : List String} {links : List ν} {pay : ν} {w : ChainWorld ν}

/-! ## Where a chain stands -/

/-- One thing that is done to a chain. -/
inductive Moved : ChainWorld ν → ChainWorld ν → Prop
  | execute (w : ChainWorld ν) (c : Atom ν) : Moved w (w.execute c).2
  | reset (w : ChainWorld ν) : Moved w w.reset

/-- Any actions and resets lead to the world from a new chain. -/
def Reached (names : List String) (links : List ν) (pay : ν) : ChainWorld ν → Prop :=
  Relation.ReflTransGen Moved (ofNames names links pay)

/-- The world is a chain of the given names and rewards, in one of its states if it has any. -/
structure Along (names : List String) (links : List ν) (pay : ν) (w : ChainWorld ν) : Prop where
  reset : w.reset = ofNames names links pay
  position : w.position ≤ names.length - 1

theorem Along.states (h : Along names links pay w) : w.states = names.map .symbol :=
  (congrArg ChainWorld.states h.reset :)

theorem Along.rewards (h : Along names links pay w) :
    w.rewards = (ofNames names links pay).rewards :=
  (congrArg ChainWorld.rewards h.reset :)

theorem Along.stayReward (h : Along names links pay w) : w.stayReward = pay :=
  (congrArg ChainWorld.stayReward h.reset :)

theorem Along.length (h : Along names links pay w) : w.states.length = names.length := by
  rw [h.states, List.length_map]

omit [Scalar ν] in
theorem lt_length_of_moveAction? {i : Nat} {c : Atom ν} (h : w.moveAction? i = some c) :
    i + 1 < w.states.length := by
  obtain ⟨source, -, h⟩ := Option.bind_eq_some_iff.1 h
  obtain ⟨target, htarget, -⟩ := Option.bind_eq_some_iff.1 h
  exact (List.getElem?_eq_some_iff.1 htarget).1

theorem Along.execute (h : Along names links pay w) (c : Atom ν) :
    Along names links pay (w.execute c).2 := by
  rw [execute_eq]
  split
  · rename_i hmove
    refine ⟨h.reset, ?_⟩
    show w.position + 1 ≤ names.length - 1
    cases haction : w.moveAction? w.position with
    | none =>
      rw [haction] at hmove
      cases hmove
    | some m =>
      have := lt_length_of_moveAction? haction
      have := h.length
      omega
  · split <;> exact ⟨h.reset, h.position⟩

theorem Reached.along (h : Reached names links pay w) : Along names links pay w := by
  induction h with
  | refl => exact ⟨rfl, Nat.zero_le _⟩
  | tail _ hmoved ih =>
    cases hmoved with
    | execute c => exact ih.execute c
    | reset => exact ⟨ih.reset, Nat.zero_le _⟩

theorem length_rewards_ofNames : (ofNames names links pay).rewards.length = names.length - 1 := by
  simp [ofNames]
  omega

/-- A link earns its reward, and nothing if it has none. -/
theorem getElem?_rewards_ofNames {i : Nat} (hi : i + 1 < names.length) :
    (ofNames names links pay).rewards[i]? = some (links[i]?.getD 0.0) := by
  show (links.take (names.length - 1) ++ List.replicate (names.length - 1 - links.length) 0.0)[i]? = _
  rcases Nat.lt_or_ge i links.length with hlt | hge
  · rw [List.getElem?_append_left (by rw [List.length_take]; omega), List.getElem?_take_of_lt (by omega),
      List.getElem?_eq_getElem hlt, Option.getD_some]
  · rw [List.getElem?_append_right (by rw [List.length_take]; omega), List.getElem?_eq_none hge,
      Option.getD_none, List.getElem?_replicate, if_pos (by rw [List.length_take]; omega)]

/-! ## What is on offer -/

/-- What equals an action on offer is what equals one of the two actions of the place, while the episode
goes on. -/
theorem any_actions (w : ChainWorld ν) (c : Atom ν) : w.actions.any (· == c) =
    (w.isRunning && (w.moveAction? w.position == some c || w.stayAction? w.position == some c)) := by
  unfold actions
  cases hrunning : w.isRunning with
  | false => rfl
  | true =>
    have hnext := lt_length_of_running hrunning
    have hhere : w.states[w.position]? = some w.states[w.position] := List.getElem?_eq_getElem _
    rw [moveAction?_eq hhere (List.getElem?_eq_getElem hnext), stayAction?_eq hhere]
    simp

/-- The action is to stay in the last of the named states, and the world is there. -/
def LingersAtEnd (names : List String) (w : ChainWorld ν) (c : Atom ν) : Prop :=
  w.position + 1 = names.length ∧ ∃ last, names.getLast? = some last ∧ (stay (.symbol last) == c) = true

/-- In the last state the action of staying is that of the last name. -/
theorem Along.lingersAtEnd_iff (h : Along names links pay w) (hover : w.isRunning = false) (c : Atom ν) :
    w.LingersAtEnd names c ↔ (w.stayAction? w.position == some c) = true := by
  have hlength : names.length ≤ w.position + 1 := by
    rw [← h.length]
    exact length_le_of_stopped (by rw [hover]; rfl)
  have hposition := h.position
  cases hlast : names.getLast? with
  | none =>
    rw [List.getLast?_eq_none_iff] at hlast
    have hstates : w.states = [] := by rw [h.states, hlast, List.map_nil]
    simp [LingersAtEnd, hlast, stayAction?, hstates]
  | some last =>
    have hnonempty : 0 < names.length := List.length_pos_iff.2 (by rintro rfl; cases hlast)
    have hend : w.position + 1 = names.length := by omega
    have hplace : w.states[w.position]? = some (.symbol last) := by
      rw [h.states, List.getElem?_map, show w.position = names.length - 1 by omega,
        ← List.getLast?_eq_getElem?, hlast, Option.map_some]
    rw [stayAction?_eq hplace]
    constructor
    · rintro ⟨-, other, hother, hc⟩
      cases hlast.symm.trans hother
      exact hc
    · exact fun hc => ⟨hend, last, hlast, hc⟩

/-- An action that is not on offer leaves the world where it is and earns nothing, except that to stay in
the last state earns what staying earns. -/
theorem execute_of_not_offered (hw : Reached names links pay w) {c : Atom ν}
    (hc : w.actions.any (· == c) = false) :
    (w.execute c).2 = { w with steps := w.steps + 1 } ∧
      (w.LingersAtEnd names c → (w.execute c).1 = pay) ∧
      (¬ w.LingersAtEnd names c → (w.execute c).1 = 0.0) := by
  have h := hw.along
  rw [any_actions] at hc
  rw [execute_eq]
  cases hrunning : w.isRunning with
  | true =>
    rw [hrunning, Bool.true_and, Bool.or_eq_false_iff] at hc
    have hnext := lt_length_of_running hrunning
    have hlength := h.length
    rw [hc.1, hc.2, if_neg Bool.false_ne_true, if_neg Bool.false_ne_true]
    exact ⟨rfl, fun hlingers => absurd hlingers.1 (by omega), fun _ => rfl⟩
  | false =>
    have hmove : w.moveAction? w.position = none := by
      refine Option.eq_none_iff_forall_ne_some.2 fun m hm => ?_
      have := lt_length_of_moveAction? hm
      have := length_le_of_stopped (w := w) (by rw [hrunning]; rfl)
      omega
    rw [h.lingersAtEnd_iff hrunning, hmove, if_neg (by simp)]
    split
    · rename_i hstay
      exact ⟨rfl, fun _ => h.stayReward, fun hother => absurd hstay hother⟩
    · rename_i hstay
      exact ⟨rfl, fun hlingers => absurd hlingers hstay, fun _ => rfl⟩

end

/-- In the middle of a chain an action of another place is ignored. -/
theorem execute_of_not_offered_elsewhere :
    let w : ChainWorld (Exact fun _ => 1) := (ofNames ["A", "B", "C"] [] 1).reset
    (w.execute (stay (.symbol "B"))).2 = { w with steps := 1 } ∧ (w.execute (stay (.symbol "B"))).1 = 0.0 := by
  intro w
  have hw : Reached ["A", "B", "C"] [] 1 w := .single (.reset _)
  obtain ⟨hworld, -, hreward⟩ := execute_of_not_offered hw (c := stay (.symbol "B")) (by decide +kernel)
  refine ⟨hworld, hreward ?_⟩
  rintro ⟨hend, -⟩
  cases hend

/-- To stay in the last state is not on offer, and earns the reward of staying. -/
theorem execute_pays_at_end : ¬ ∀ (names : List String) (links : List (Exact fun _ => 1))
    (pay : Exact fun _ => 1) (w : ChainWorld (Exact fun _ => 1)) (c : Atom (Exact fun _ => 1)),
    Reached names links pay w → w.actions.any (· == c) = false →
      (w.execute c).1 = 0.0 ∧ (w.execute c).2.position = w.position := by
  intro h
  have hpaid := (h ["A"] [] 1 _ (stay (.symbol "A")) .refl (by decide +kernel)).1
  revert hpaid
  decide +kernel

end ChainWorld

namespace Agent

variable {ρ ν ω : Type} [Scalar ν] [RandomSource ρ] [World ω ν]

/-! ## Runs are cycles -/

/-- The cycles of an agent, with the world that each of them begins in. -/
def history (a : Agent ρ ν) (w : ω) : Nat → List (ω × Outcome ν)
  | 0 => []
  | n + 1 => (w, (a.step w).1) :: (a.step w).2.1.history (a.step w).2.2 n

/-- The agent and the world after some cycles. -/
def after (a : Agent ρ ν) (w : ω) : Nat → Agent ρ ν × ω
  | 0 => (a, w)
  | n + 1 => (a.step w).2.1.after (a.step w).2.2 n

/-- The summary of a run before its first cycle. -/
def RunSummary.start : RunSummary ν :=
  { cycles := 0, idleCycles := 0, totalReward := 0.0, stop := .cycleBudget }

/-- A summary with one more cycle. -/
def RunSummary.record (summary : RunSummary ν) : Outcome ν → RunSummary ν
  | .idle _ => { summary with cycles := summary.cycles + 1, idleCycles := summary.idleCycles + 1 }
  | .acted _ _ _ reward _ =>
    { summary with cycles := summary.cycles + 1, totalReward := summary.totalReward + reward }

/-- A summary with more cycles. -/
def RunSummary.tally (summary : RunSummary ν) (cycles : List (ω × Outcome ν)) : RunSummary ν :=
  cycles.foldl (fun summary cycle => summary.record cycle.2) summary

/-- Whether the action that was taken is to stay somewhere. -/
def Outcome.isStay : Outcome ν → Bool
  | .acted _ (.expr [.symbol "Stay", _]) _ _ _ => true
  | _ => false

/-- The number of cycles in which the agent stayed. -/
def stays (cycles : List (ω × Outcome ν)) : Nat :=
  cycles.countP fun cycle => cycle.2.isStay

omit [World ω ν] in
theorem RunSummary.cycles_tally (summary : RunSummary ν) (cycles : List (ω × Outcome ν)) :
    (summary.tally cycles).cycles = summary.cycles + cycles.length := by
  induction cycles generalizing summary with
  | nil => rfl
  | cons cycle cycles ih =>
    have hone : (summary.record cycle.2).cycles = summary.cycles + 1 := by
      cases cycle.2 <;> rfl
    rw [tally, List.foldl_cons, ← tally, ih, hone, List.length_cons]
    omega

theorem length_history (a : Agent ρ ν) (w : ω) (n : Nat) : (a.history w n).length = n := by
  induction n generalizing a w with
  | zero => rfl
  | succ n ih => rw [history, List.length_cons, ih]

/-- A run without a goal is some cycles, in each of which the episode goes on. -/
theorem exists_tally_of_runWithin (cycles : Nat) (summary : RunSummary ν) (a : Agent ρ ν) (w : ω) :
    ∃ n stop, a.runWithin none cycles summary w =
        ({ summary.tally (a.history w n) with stop }, a.after w n) ∧
      (∀ cycle ∈ a.history w n, World.isRunning cycle.1 = true) ∧
      (stop = .environmentStopped → World.isRunning (a.after w n).2 = false) := by
  induction cycles generalizing summary a w with
  | zero =>
    cases hrunning : World.isRunning w with
    | true =>
      refine ⟨0, .cycleBudget, ?_, nofun, nofun⟩
      unfold runWithin
      simp [meets, hrunning, history, after, RunSummary.tally]
    | false =>
      refine ⟨0, .environmentStopped, ?_, nofun, fun _ => hrunning⟩
      unfold runWithin
      simp [meets, hrunning, history, after, RunSummary.tally]
  | succ cycles ih =>
    cases hrunning : World.isRunning w with
    | true =>
      obtain ⟨n, stop, hrun, hhistory, hstop⟩ :=
        ih (summary.record (a.step w).1) (a.step w).2.1 (a.step w).2.2
      refine ⟨n + 1, stop, ?_, List.forall_mem_cons.2 ⟨hrunning, hhistory⟩, hstop⟩
      have hnext : a.runWithin none (cycles + 1) summary w =
          (a.step w).2.1.runWithin none cycles (summary.record (a.step w).1) (a.step w).2.2 := by
        rw [runWithin]
        simp only [meets, hrunning, Bool.not_true, Bool.false_eq_true, if_false]
        cases (a.step w).1 <;> rfl
      rw [hnext, hrun]
      rfl
    | false =>
      refine ⟨0, .environmentStopped, ?_, nofun, fun _ => hrunning⟩
      unfold runWithin
      simp [meets, hrunning, history, after, RunSummary.tally]

end Agent

namespace ChainWorld

open Agent (RunSummary stays)

/-! ## Runs in a chain -/

section
variable {ρ ν : Type} [Scalar ν] [RandomSource ρ] {names : List String} {links : List ν} {pay : ν} {w : ChainWorld ν}

/-- In a cycle an agent takes an action that is on offer, if any is. -/
theorem exists_step (a : Agent ρ ν) (hne : w.actions ≠ []) : ∃ state c next utility, c ∈ w.actions ∧
    (a.step w).1 = .acted state c next (w.execute c).1 utility ∧ (a.step w).2.2 = (w.execute c).2 := by
  unfold Agent.step World.percepts World.actions World.execute ChainWorld.instWorld
  rcases a.perceive w.percepts with ⟨state, b⟩
  obtain ⟨c, hc, hselect⟩ := b.exists_select hne
  rcases hselected : b.select w.actions with ⟨chosen, d⟩
  rw [hselected] at hselect
  obtain rfl : chosen = some c := hselect
  simp only [hselected]
  exact ⟨_, c, _, _, hc, rfl, rfl⟩

/-- In a cycle an agent moves on or stays, and earns what that earns. -/
theorem Along.step (h : Along names links pay w) (hrunning : w.isRunning = true) (a : Agent ρ ν) :
    ∃ state c next reward utility, (a.step w).1 = .acted state c next reward utility ∧
      Along names links pay (a.step w).2.2 ∧ (a.step w).2.2.steps = w.steps + 1 ∧
      ((a.step w).1.isStay = false ∧ reward = links[w.position]?.getD 0.0 ∧
          (a.step w).2.2.position = w.position + 1 ∨
        (a.step w).1.isStay = true ∧ reward = pay ∧ (a.step w).2.2.position = w.position) := by
  have hnext := lt_length_of_running hrunning
  have hne : w.actions ≠ [] := by
    simp [actions, hrunning, moveAction?_eq (List.getElem?_eq_getElem (Nat.lt_of_succ_lt hnext))
      (List.getElem?_eq_getElem hnext)]
  obtain ⟨state, c, next, utility, hc, hout, hworld⟩ := exists_step a hne
  refine ⟨state, c, next, _, utility, hout, hworld ▸ h.execute c, ?_⟩
  rw [hout, hworld]
  obtain ⟨source, target, hsource, htarget, rfl | rfl⟩ := mem_actions hc
  · rw [execute_move hsource htarget, h.rewards, getElem?_rewards_ofNames (h.length ▸ hnext)]
    exact ⟨rfl, .inl ⟨rfl, rfl, rfl⟩⟩
  · rw [execute_stay hsource]
    exact ⟨rfl, .inr ⟨rfl, h.stayReward, rfl⟩⟩

end

variable {ρ : Type} [RandomSource ρ] {exp : Rat → Rat} {names : List String} {links : List (Exact exp)}
  {pay : Exact exp} {w : ChainWorld (Exact exp)}

/-- What a link earns, which is nothing if it has no reward. -/
def linkReward (links : List (Exact exp)) (i : Nat) : Rat :=
  (links[i]?.map Exact.value).getD 0

/-- What some cycles in a chain come to, from one world to another. -/
structure Earned (names : List String) (links : List (Exact exp)) (pay : Exact exp)
    (w v : ChainWorld (Exact exp)) (cycles : List (ChainWorld (Exact exp) × Agent.Outcome (Exact exp)))
    (summary total : RunSummary (Exact exp)) : Prop where
  along : Along names links pay v
  position : v.position + stays cycles = w.position + cycles.length
  steps : v.steps = w.steps + cycles.length
  idle : total.idleCycles = summary.idleCycles
  reward : total.totalReward.value = summary.totalReward.value +
    (∑ i ∈ Finset.Ico w.position v.position, linkReward links i) + stays cycles * pay.value

/-- Without a reward a link earns nothing. -/
theorem value_getD (links : List (Exact exp)) (i : Nat) : (links[i]?.getD 0.0).value = linkReward links i := by
  unfold linkReward
  cases links[i]? with
  | none => exact Exact.value_zero
  | some reward => rfl

/-- One more cycle before the others earns its link, or what staying earns. -/
theorem Earned.cons {w u v : ChainWorld (Exact exp)} {outcome : Agent.Outcome (Exact exp)}
    {cycles : List (ChainWorld (Exact exp) × Agent.Outcome (Exact exp))} {summary total : RunSummary (Exact exp)}
    {state c next : Atom (Exact exp)} {reward utility : Exact exp}
    (h : Earned names links pay u v cycles (summary.record outcome) total)
    (hout : outcome = .acted state c next reward utility) (hstep : u.steps = w.steps + 1)
    (hcase : outcome.isStay = false ∧ reward = links[w.position]?.getD 0.0 ∧ u.position = w.position + 1 ∨
      outcome.isStay = true ∧ reward = pay ∧ u.position = w.position) :
    Earned names links pay w v ((w, outcome) :: cycles) summary total := by
  have hcons : stays ((w, outcome) :: cycles) = stays cycles + if outcome.isStay = true then 1 else 0 :=
    List.countP_cons
  have hle : stays cycles ≤ cycles.length := List.countP_le_length
  have hposition := h.position
  have hsteps := h.steps
  have hidle : (summary.record outcome).idleCycles = summary.idleCycles := hout ▸ rfl
  have hreward : (summary.record outcome).totalReward.value = summary.totalReward.value + reward.value := hout ▸ rfl
  refine ⟨h.along, ?_, by rw [List.length_cons]; omega, h.idle.trans hidle, ?_⟩
  · rw [hcons, List.length_cons]
    rcases hcase with ⟨hmoves, -, hplace⟩ | ⟨hstays, -, hplace⟩
    · rw [hmoves, if_neg Bool.false_ne_true]
      omega
    · rw [hstays, if_pos rfl]
      omega
  · rw [h.reward, hreward, hcons]
    rcases hcase with ⟨hmoves, rfl, hplace⟩ | ⟨hstays, rfl, hplace⟩
    · have hlt : w.position < v.position := by omega
      rw [hmoves, if_neg Bool.false_ne_true, Nat.add_zero, Finset.sum_eq_sum_Ico_succ_bot hlt, hplace, value_getD]
      ring
    · rw [hstays, if_pos rfl, hplace]
      push_cast
      ring

/-- Cycles in a chain earn the links that they lead along, and staying as often as the agent stays. -/
theorem Along.earned {w : ChainWorld (Exact exp)} (h : Along names links pay w) (n : Nat) (a : Agent ρ (Exact exp))
    (hrunning : ∀ cycle ∈ a.history w n, World.isRunning cycle.1 = true) (summary : RunSummary (Exact exp)) :
    Earned names links pay w (a.after w n).2 (a.history w n) summary (summary.tally (a.history w n)) := by
  induction n generalizing a w summary with
  | zero => exact ⟨h, rfl, rfl, rfl, by simp [Agent.history, Agent.after, RunSummary.tally, stays]⟩
  | succ n ih =>
    obtain ⟨hfirst, hrest⟩ := List.forall_mem_cons.1 hrunning
    obtain ⟨state, c, next, reward, utility, hout, hnext, hstep, hcase⟩ := h.step hfirst a
    exact (ih hnext _ hrest _).cons hout hstep hcase

/-- How an episode ends that has come to its end. -/
structure Finished (names : List String) (links : List (Exact exp)) (pay : Exact exp)
    (history : List (ChainWorld (Exact exp) × Agent.Outcome (Exact exp))) (summary : RunSummary (Exact exp))
    (v : ChainWorld (Exact exp)) : Prop where
  /-- In every cycle an action was taken. -/
  idle : summary.idleCycles = 0
  /-- In each cycle the agent moved on to one more state or stayed. -/
  cycles : summary.cycles = names.length - 1 + stays history
  steps : v.steps = summary.cycles
  /-- Each link was earned once, and staying each time. -/
  reward : summary.totalReward.value =
    (∑ i ∈ Finset.range (names.length - 1), linkReward links i) + stays history * pay.value
  /-- The world is in the last state, if there is one. -/
  place : v.current? = names.getLast?.map .symbol
  /-- There was a next state and a reward for it at all times. -/
  inRange : ∀ cycle ∈ history, cycle.1.position + 1 < cycle.1.states.length ∧
    cycle.1.position < cycle.1.rewards.length

/-- In its last state a chain stops, and nowhere else. -/
theorem Along.position_of_stopped (h : Along names links pay w) (hstopped : w.isRunning = false) :
    w.position = names.length - 1 := by
  have hlength := length_le_of_stopped (w := w) (by rw [hstopped]; rfl)
  have hposition := h.position
  rw [h.length] at hlength
  omega

/-- What is known of the cycles of a run is known of the worlds in them. -/
theorem Along.mem_history (h : Along names links pay w) (n : Nat) (a : Agent ρ (Exact exp))
    (hrunning : ∀ cycle ∈ a.history w n, World.isRunning cycle.1 = true) :
    ∀ cycle ∈ a.history w n, Along names links pay cycle.1 := by
  induction n generalizing a w with
  | zero => exact nofun
  | succ n ih =>
    obtain ⟨hfirst, hrest⟩ := List.forall_mem_cons.1 hrunning
    obtain ⟨-, -, -, -, -, -, hnext, -⟩ := h.step hfirst a
    exact List.forall_mem_cons.2 ⟨h, ih hnext _ hrest⟩

/-- A chain that goes on has a next state, and a reward for the link to it. -/
theorem Along.lt_of_running (h : Along names links pay w) (hrunning : w.isRunning = true) :
    w.position + 1 < w.states.length ∧ w.position < w.rewards.length := by
  have hnext := lt_length_of_running hrunning
  have hlength := h.length
  rw [h.rewards, length_rewards_ofNames]
  omega

/-- A run without a goal that begins in the first state of a chain and ends because the episode is over has
earned each link once, and staying as often as the agent stayed. -/
theorem finished_run (hw : Reached names links pay w) (a : Agent ρ (Exact exp)) (maxCycles : Nat)
    (hstop : (a.run w.reset none maxCycles).1.stop = .environmentStopped) :
    let summary := (a.run w.reset none maxCycles).1
    (a.run w.reset none maxCycles).2 = a.after w.reset summary.cycles ∧
      Finished names links pay (a.history w.reset summary.cycles) summary (a.after w.reset summary.cycles).2 := by
  intro summary
  have hreset : Along names links pay w.reset := ⟨hw.along.reset, Nat.zero_le _⟩
  obtain ⟨n, stop, hrun, hrunning, hstopped⟩ := a.exists_tally_of_runWithin maxCycles .start w.reset
  have hsummary : summary = { RunSummary.start.tally (a.history w.reset n) with stop } := congrArg Prod.fst hrun
  have hcycles : summary.cycles = n := by
    rw [hsummary]
    exact (RunSummary.cycles_tally _ _).trans (by rw [Agent.length_history, RunSummary.start, Nat.zero_add])
  have hover := hstopped (by rw [← hstop]; exact congrArg RunSummary.stop hsummary.symm)
  obtain ⟨halong, hposition, hsteps, hidle, hreward⟩ := hreset.earned n a hrunning .start
  have hlast := halong.position_of_stopped hover
  rw [Agent.length_history] at hposition hsteps
  rw [hcycles]
  refine ⟨congrArg Prod.snd hrun, ?_⟩
  refine
    { idle := ?idle, cycles := ?cycles, steps := ?steps, reward := ?reward, place := ?place, inRange := ?inRange }
  case idle =>
    rw [hsummary]
    exact hidle
  case cycles =>
    rw [hcycles, ← hlast, hposition]
    exact (Nat.zero_add n).symm
  case steps =>
    rw [hcycles, hsteps]
    exact Nat.zero_add n
  case reward =>
    rw [hsummary]
    refine hreward.trans ?_
    have hfrom : w.reset.position = 0 := rfl
    rw [hlast, hfrom, ← Finset.range_eq_Ico, RunSummary.start, Exact.value_zero, zero_add]
  case place =>
    rw [current?, halong.states, hlast, List.getElem?_map, ← List.getLast?_eq_getElem?]
  case inRange =>
    exact fun cycle hcycle => (hreset.mem_history n a hrunning cycle hcycle).lt_of_running (hrunning cycle hcycle)

/-- An agent that knows nothing and only explores, and that picks the second of two actions and then the
first. -/
def dawdler : Agent (Prepared SplitMix) (Exact fun _ => 1) where
  config := { (default : AgentConfig (Exact fun _ => 1)) with exploration := 1 }
  evaluator := .usual
  space := .empty default
  random := ⟨[0, 0x8000000000000000, 0, 0], {}⟩

/-- It stays once in the first of two states. -/
theorem finished_run_dawdler :
    let w : ChainWorld (Exact fun _ => 1) := (ofNames ["A", "B"] [3] 2).reset
    let summary := (dawdler.run w none 10).1
    (dawdler.run w none 10).2 = dawdler.after w summary.cycles ∧
      Finished ["A", "B"] [3] 2 (dawdler.history w summary.cycles) summary (dawdler.after w summary.cycles).2 :=
  finished_run .refl dawdler 10 (by decide +kernel)

end ChainWorld

end Atomspace
