import Atomspace.Agent
import Atomspace.Program
import Mathlib.Logic.Relation
/-!
# What code does to a space

Evaluations, programs and agents ask queries and write, and run native code. When all of these take
steps of one kind, so do they, whatever the kind is (`Evaluator.eval_abides`, `Agent.follows_runWithin`). An
invariant need then only be shown for single steps, with the kind chosen as narrow as the invariant asks for.
What agents do in their cycles is taken apart once, for any relation that their single activities respect
(`Agent.Routine`).
-/

namespace Atomspace

variable {ν : Type} [Scalar ν]

/-! ## Native code -/

/-- From every space, steps of a kind lead to the space that the native code leaves behind. -/
def Native.Abides (S : Space ν → Space ν → Prop) (f : Native ν) : Prop :=
  ∀ args s, Relation.ReflTransGen S s (f args s).2

/-- All code of the registry takes steps of one kind only. -/
def Registry.Abides (S : Space ν → Space ν → Prop) (r : Registry ν) : Prop :=
  ∀ head name f, r.resolve? head = some (name, f) → f.Abides S

section
variable {S : Space ν → Space ν → Prop}

omit [Scalar ν] in
theorem Native.abides_pure (f : List (Atom ν) → Except (NativeError ν) (Atom ν)) :
    (Native.pure f).Abides S :=
  fun _ _ => .refl

variable (hquery : ∀ s pattern, S s (s.query pattern).2)
include hquery

theorem Native.abides_matchSpace : (Native.matchSpace (ν := ν)).Abides S := by
  intro args s
  unfold matchSpace
  split
  · split
    · exact .single (hquery _ _)
    · exact .refl
  · exact .refl

theorem Native.abides_standard : ∀ e ∈ (standard : List (String × Native ν)), e.2.Abides S := by
  simp only [standard, List.forall_mem_cons, List.not_mem_nil, false_implies, implies_true, and_true]
  exact ⟨abides_pure _, abides_pure _, abides_pure _, abides_pure _, abides_pure _, abides_pure _,
    abides_pure _, abides_pure _, abides_pure _, abides_matchSpace hquery⟩

/-- The standard code does nothing but query. -/
theorem Registry.abides_standard : (Registry.standard : Registry ν).Abides S :=
  forall_standard (Native.abides_standard hquery)

theorem Registry.abides_standardWith {code : String → Option (Native ν)}
    (hcode : ∀ name f, code name = some f → f.Abides S) : (standardWith code).Abides S :=
  forall_standardWith (Native.abides_standard hquery) hcode

end

namespace Evaluator

/-! ## Evaluation -/

/-- From every state, steps of a kind lead to the space that the computation leaves behind. -/
def Abides {α : Type} (S : Space ν → Space ν → Prop) (m : Evaluating ν α) : Prop :=
  ∀ e, Relation.ReflTransGen S e.space (m e).2.space

section
variable {S : Space ν → Space ν → Prop}

omit [Scalar ν] in
theorem Abides.pure {α : Type} (a : α) : Abides (ν := ν) S (pure a) :=
  fun _ => .refl

omit [Scalar ν] in
theorem Abides.bind {α β : Type} {m : Evaluating ν α} {f : α → Evaluating ν β} (hm : Abides S m)
    (hf : ∀ a, Abides S (f a)) : Abides S (m >>= f) :=
  fun e => (hm e).trans (hf _ _)

omit [Scalar ν] in
theorem abides_path (f : List String → List String) :
    Abides (ν := ν) S (modify fun st => { st with path := f st.path }) :=
  fun _ => .refl

omit [Scalar ν] in
theorem abides_get : Abides (ν := ν) S get :=
  fun _ => .refl

section
variable {recur : Atom ν → Evaluating ν (List (Atom ν))} (hrec : ∀ a, Abides S (recur a))
include hrec

theorem abides_applyGround (l : List (Match ν)) (r : Results ν) : Abides S (applyGround recur l r) := by
  induction l generalizing r with
  | nil => exact .pure _
  | cons m l ih =>
    unfold applyGround
    split
    · exact .pure _
    · split
      · exact ih r
      · exact (hrec _).bind fun _ => (ih _).bind fun _ => .pure _

theorem abides_applyGeneral (a : Atom ν) (applied : List String) (l : List (Match ν)) (r : Results ν) :
    Abides S (applyGeneral recur a applied l r) := by
  induction l generalizing r with
  | nil => exact .pure _
  | cons m l ih =>
    unfold applyGeneral
    split
    · exact .pure _
    · split
      · exact ih r
      · split
        · exact ih r
        · exact (hrec _).bind fun _ => ih _

omit [Scalar ν] in
theorem abides_argumentValues (l : List (Atom ν)) : Abides S (argumentValues recur l) := by
  induction l with
  | nil => exact .pure _
  | cons a l ih =>
    unfold argumentValues
    apply (hrec a).bind
    intro values
    split
    · exact ih.bind fun _ => .pure _
    · exact .pure _

theorem abides_evalChildren (l : List (Atom ν)) : Abides S (evalChildren recur l) := by
  induction l with
  | nil => exact .pure _
  | cons a l ih =>
    unfold evalChildren
    exact (hrec a).bind fun _ => ih.bind fun _ => .pure _

theorem abides_applyNative {e : Evaluator ν} (he : e.registry.Abides S) (head : Atom ν)
    (args : List (Atom ν)) (r : Results ν) : Abides S (applyNative recur e head args r) := by
  unfold applyNative
  split
  · exact .pure _
  · rename_i name f hf
    apply (abides_argumentValues hrec args).bind
    intro values
    split
    · exact .pure _
    · rename_i values
      have hcall : Abides S (call f values) := fun st => he head name f hf values st.space
      apply hcall.bind
      intro result
      split
      · exact .pure _
      · exact (hrec _).bind fun _ => .pure _

end

variable (hquery : ∀ s pattern, S s (s.query pattern).2)
include hquery

theorem abides_ask (pattern : Atom ν) : Abides S (ask pattern) :=
  fun e => .single (hquery e.space pattern)

theorem abides_arityAgrees (head : Atom ν) (count : Nat) : Abides S (arityAgrees head count) := by
  unfold arityAgrees
  split
  · exact .pure _
  · exact (abides_ask hquery _).bind fun _ => .pure _

variable {e : Evaluator ν} (he : e.registry.Abides S)
include he

section
variable {recur : Atom ν → Evaluating ν (List (Atom ν))} (hrec : ∀ a, Abides S (recur a))
include hrec

theorem abides_reduce (head : Atom ν) (args : List (Atom ν)) :
    Abides S (reduce recur e head args) := by
  unfold reduce
  apply (abides_arityAgrees hquery head _).bind
  intro agrees
  split
  · refine (abides_ask hquery _).bind fun _ => (abides_applyGround hrec _ _).bind fun _ => ?_
    refine (abides_ask hquery _).bind fun _ => (abides_applyGeneral hrec _ _ _ _).bind fun _ => ?_
    exact abides_applyNative hrec he head args _
  · exact .pure _

theorem abides_step (a : Atom ν) : Abides S (step recur e a) := by
  unfold step
  split
  · rename_i head args
    apply abides_get.bind
    intro st
    split
    · exact .pure _
    · refine (abides_path _).bind fun _ => (abides_reduce hquery he hrec head args).bind fun r => ?_
      -- both ways out take the expression off the path
      have hleave (results : List (Atom ν)) : Abides S (do
          modify fun st : Evaluation ν =>
            { st with path := st.path.erase (Atom.expr (head :: args)).key }
          return results) :=
        (abides_path (·.erase _)).bind fun _ => .pure results
      dsimp only
      split
      · exact (abides_evalChildren hrec _).bind fun _ => (Abides.pure _).bind hleave
      · exact (Abides.pure _).bind hleave
  · exact .pure _

end

theorem abides_evalPath (depth : Nat) (a : Atom ν) : Abides S (e.evalPath depth a) := by
  induction depth generalizing a with
  | zero => exact .pure _
  | succ depth ih => exact abides_step hquery he ih a

/-- An evaluation queries the space and runs native code, and does nothing else to it. -/
theorem eval_abides (a : Atom ν) (depth : Nat) (s : Space ν) :
    Relation.ReflTransGen S s (e.eval a depth s).2 :=
  abides_evalPath hquery he depth a { space := s }

/-! ## Utilities -/

theorem numberOf?_abides (a : Atom ν) (s : Space ν) :
    Relation.ReflTransGen S s (e.numberOf? a s).2 := by
  unfold numberOf?
  split
  · exact .refl
  · exact eval_abides hquery he a _ s

theorem numericRules_abides (l : List (Match ν)) (s : Space ν) :
    Relation.ReflTransGen S s (e.numericRules l s).2 := by
  induction l generalizing s with
  | nil => exact .refl
  | cons m l ih =>
    unfold numericRules
    split
    · exact ih s
    · exact (numberOf?_abides hquery he _ s).trans (ih _)

theorem utilityRules_abides (action : Atom ν) (s : Space ν) :
    Relation.ReflTransGen S s (e.utilityRules action s).2 :=
  .head (hquery s _) (numericRules_abides hquery he _ _)

theorem promising_abides (threshold : ν) (actions : List (Atom ν)) (s : Space ν) :
    Relation.ReflTransGen S s (e.promising threshold actions s).2 := by
  induction actions generalizing s with
  | nil => exact .refl
  | cons action actions ih => exact (utilityRules_abides hquery he action s).trans (ih _)

end

end Evaluator

/-! ## Programs and agents -/

/-- The kind has room for every query and for what programs and agents write. -/
structure Conduct (S : Space ν → Space ν → Prop) : Prop where
  add : ∀ s a, S s (s.add a).2
  assert : ∀ s a t, S s (s.assert a t).2
  boost : ∀ s a amount, S s (s.boost a amount).2
  remove : ∀ s (a : Atom ν), S s (s.remove a).2
  query : ∀ s pattern, S s (s.query pattern).2

section
variable {S : Space ν → Space ν → Prop} (hadd : ∀ s a, S s (s.add a).2)
  (hquery : ∀ s pattern, S s (s.query pattern).2)
include hadd hquery

theorem Evaluator.execute_abides {e : Evaluator ν} (he : e.registry.Abides S) (l : List (Statement ν))
    (s : Space ν) : Relation.ReflTransGen S s (e.execute l s).2 := by
  induction l generalizing s with
  | nil => exact .refl
  | cons statement l ih =>
    cases statement with
    | assert a => exact .head (hadd s a) (ih _)
    | evaluate a => exact (eval_abides hquery he a _ s).trans (ih _)

theorem Evaluator.runProgram_abides {e : Evaluator ν} (he : e.registry.Abides S) (text : String)
    (s : Space ν) : Relation.ReflTransGen S s (e.runProgram text s).2 := by
  unfold runProgram
  split
  · exact .refl
  · exact execute_abides hadd hquery he _ s

end

namespace Agent

variable {ρ : Type} {S : Space ν → Space ν → Prop}

/-- Steps of a kind lead from what the one agent knows to what the other knows, and both evaluate
alike. -/
structure Follows (S : Space ν → Space ν → Prop) (a b : Agent ρ ν) : Prop where
  evaluator : b.evaluator = a.evaluator
  steps : Relation.ReflTransGen S a.space b.space

omit [Scalar ν] in
theorem Follows.refl (a : Agent ρ ν) : Follows S a a :=
  ⟨rfl, .refl⟩

omit [Scalar ν] in
theorem Follows.trans {a b c : Agent ρ ν} (h : Follows S a b) (h' : Follows S b c) : Follows S a c :=
  ⟨h'.evaluator.trans h.evaluator, h.steps.trans h'.steps⟩

/-- What an agent is and what it becomes are related by all that it does in a cycle and between cycles. -/
structure Routine [RandomSource ρ] (R : Agent ρ ν → Agent ρ ν → Prop) : Prop where
  trans : ∀ {a b c}, R a b → R b c → R a c
  phase : ∀ a phase, R a { a with phase }
  perceive : ∀ a percepts, R a (a.perceive percepts).2
  select : ∀ a actions, R a (a.select actions).2
  learn : ∀ a state action next reward, R a (a.learn state action next reward).2
  meets : ∀ a goal, R a (a.meets goal).2

section
variable {ω : Type} [RandomSource ρ] [World ω ν] {R : Agent ρ ν → Agent ρ ν → Prop} (hR : Routine R)
include hR

theorem Routine.step (a : Agent ρ ν) (w : ω) : R a (a.step w).2.1 := by
  unfold Agent.step
  have hperceive := hR.perceive a (World.percepts w)
  generalize a.perceive (World.percepts w) = perceived at hperceive ⊢
  obtain ⟨state, b⟩ := perceived
  have hselect := hR.select b (World.actions w state).1
  simp only
  generalize b.select (World.actions w state).1 = selected at hselect ⊢
  obtain ⟨action?, c⟩ := selected
  have hc := hR.trans hperceive hselect
  cases action? with
  | none => exact hR.trans hc (hR.phase c .idle)
  | some action =>
    simp only
    generalize World.execute (World.actions w state).2 action = executed
    obtain ⟨⟨percepts, reward⟩, w'⟩ := executed
    have hnext := hR.trans hc (hR.perceive c percepts)
    simp only
    generalize c.perceive percepts = perceived at hnext ⊢
    obtain ⟨next, d⟩ := perceived
    have hlearn := hR.trans hnext (hR.learn d state action next reward)
    simp only
    generalize d.learn state action next reward = learned at hlearn ⊢
    obtain ⟨utility, e⟩ := learned
    exact hR.trans hlearn (hR.phase e .idle)

/-- The invariant of a run: what the agent is is related to what it began as. -/
theorem Routine.runWithin (goal : Option (Atom ν)) (cycles : Nat) (summary : RunSummary ν)
    (a : Agent ρ ν) (w : ω) : R a (Agent.runWithin goal cycles summary a w).2.1 := by
  induction cycles generalizing a summary w with
  | zero =>
    have hmeets := hR.meets a goal
    unfold Agent.runWithin
    simp only
    split
    · exact hmeets
    · split <;> exact hmeets
  | succ cycles ih =>
    have hmeets := hR.meets a goal
    unfold Agent.runWithin
    simp only
    split
    · exact hmeets
    · split
      · exact hmeets
      · exact hR.trans (hR.trans hmeets (hR.step _ w)) (ih _ _ _)

end

variable (hS : Conduct S)
include hS

theorem follows_notice (a : Agent ρ ν) (percept : Atom ν) : Follows S a (a.notice percept) :=
  ⟨rfl, .tail (.single (hS.assert _ _ _)) (hS.boost _ _ _)⟩

theorem follows_noticeAll (a : Agent ρ ν) (percepts : List (Atom ν)) :
    Follows S a (percepts.foldl notice a) := by
  induction percepts generalizing a with
  | nil => exact .refl a
  | cons percept percepts ih => exact (follows_notice hS a percept).trans (ih _)

theorem follows_perceive (a : Agent ρ ν) (percepts : List (Atom ν)) :
    Follows S a (a.perceive percepts).2 := by
  obtain ⟨heval, hsteps⟩ := follows_noticeAll hS { a with phase := .perceiving } percepts
  exact ⟨heval, .tail hsteps (hS.assert _ _ _)⟩

omit hS in
theorem removeAll_abides {α : Type} (hremove : ∀ s (a : Atom ν), S s (s.remove a).2) (l : List (Atom ν × α)) (s : Space ν) :
    Relation.ReflTransGen S s (l.foldl (fun s rule => (s.remove rule.1).2) s) := by
  induction l generalizing s with
  | nil => exact .refl
  | cons rule l ih => exact .head (hremove s rule.1) (ih _)

theorem follows_learn {a : Agent ρ ν} (ha : a.evaluator.registry.Abides S) (state action next : Atom ν)
    (reward : ν) : Follows S a (a.learn state action next reward).2 := by
  unfold learn
  simp only
  refine ⟨rfl, ?_⟩
  refine .tail (.tail (.trans (.trans ?_ (Evaluator.utilityRules_abides hS.query ha action _))
    (removeAll_abides hS.remove _ _)) (hS.assert _ _ _)) (hS.boost _ _ _)
  exact .single (hS.assert _ _ _)

omit hS in
theorem follows_select [RandomSource ρ] (hquery : ∀ s pattern, S s (s.query pattern).2) {a : Agent ρ ν}
    (ha : a.evaluator.registry.Abides S) (actions : List (Atom ν)) :
    Follows S a (a.select actions).2 := by
  unfold select
  simp only
  split
  · exact ⟨rfl, .refl⟩
  · split
    · exact ⟨rfl, .refl⟩
    · have h := Evaluator.promising_abides hquery ha a.config.utilityThreshold actions a.space
      split <;> exact ⟨rfl, h⟩

omit hS in
theorem follows_meets (hquery : ∀ s pattern, S s (s.query pattern).2) (a : Agent ρ ν) (goal : Option (Atom ν)) :
    Follows S a (a.meets goal).2 := by
  cases goal with
  | none => exact .refl a
  | some g => exact ⟨rfl, .single (hquery _ g)⟩

/-- An agent that runs code of the kind only follows what it was before. -/
theorem routine_follows [RandomSource ρ] :
    Routine fun a b : Agent ρ ν => a.evaluator.registry.Abides S → Follows S a b where
  trans hab hbc ha := (hab ha).trans (hbc ((hab ha).evaluator ▸ ha))
  phase _ _ _ := ⟨rfl, .refl⟩
  perceive a percepts _ := follows_perceive hS a percepts
  select _ actions ha := follows_select hS.query ha actions
  learn _ state action next reward ha := follows_learn hS ha state action next reward
  meets a goal _ := follows_meets hS.query a goal

variable {ω : Type} [RandomSource ρ] [World ω ν]

theorem follows_step {a : Agent ρ ν} (ha : a.evaluator.registry.Abides S) (w : ω) :
    Follows S a (a.step w).2.1 :=
  (routine_follows hS).step a w ha

theorem follows_runWithin {a : Agent ρ ν} (ha : a.evaluator.registry.Abides S) (goal : Option (Atom ν))
    (cycles : Nat) (summary : RunSummary ν) (w : ω) :
    Follows S a (runWithin goal cycles summary a w).2.1 :=
  (routine_follows hS).runWithin goal cycles summary a w ha

end Agent

end Atomspace
