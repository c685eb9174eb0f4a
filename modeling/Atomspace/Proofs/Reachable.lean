import Atomspace.Proofs.Conduct
import Atomspace.Proofs.Reading
/-!
# Reachable spaces

A space is *reachable* when operations lead to it from an empty one. Evaluations, programs and agents are
made of operations (`UsesBy.steps`), as far as the native code they run is, so whatever holds of all
reachable spaces also holds of those they leave behind.

Some invariants ask for more than operations do: that no update puts in numbers out of range, say, or that
nothing passes for a protected symbol. What is asked for are the `Terms` of the operations.
-/

namespace Atomspace

namespace Space

variable {ν : Type}

/-! ## Operations -/

/-- What the operations on a space are given. -/
structure Terms (ν : Type) where
  /-- The truths that are asserted. -/
  asserts : Truth ν → Prop
  /-- The changes that updates make to what is known. -/
  updates : (Valuation ν → Valuation ν) → Prop
  /-- What is looked up to be removed. -/
  removes : Atom.Handle → Prop

/-- Operations are given anything. -/
def Terms.any : Terms ν where
  asserts _ := True
  updates _ := True
  removes _ := True

variable [Scalar ν] {c : Terms ν}

/-- One operation on a space, on terms. -/
inductive Operation (c : Terms ν) : Space ν → Space ν → Prop
  | add (s : Space ν) (a : Atom ν) : Operation c s (s.add a).2
  | assert (s : Space ν) (a : Atom ν) {t : Truth ν} (ht : c.asserts t) : Operation c s (s.assert a t).2
  | get (s : Space ν) (key : String) : Operation c s (s.get? key).2
  | update (s : Space ν) (a : Atom ν) {f : Valuation ν → Valuation ν} (hf : c.updates f) :
      Operation c s (s.update a f).2
  | boost (s : Space ν) (a : Atom ν) (amount : ν) : Operation c s (s.boost a amount).2
  | remove (s : Space ν) {h : Atom.Handle} (hh : c.removes h) : Operation c s (s.remove h).2
  | query (s : Space ν) (pattern : Atom ν) : Operation c s (s.query pattern).2
  | forget (s : Space ν) : Operation c s s.forget.2

/-- Programs and agents use a space by operations. They assert any truths, and remove stored atoms. -/
theorem conduct_operation (hasserts : ∀ t, c.asserts t) (hremoves : ∀ a : Atom ν, c.removes a) :
    Conduct (Operation c) :=
  ⟨.add, fun s a t => .assert s a (hasserts t), .boost, fun s a => .remove s (hremoves a), .query⟩

/-- One operation on a space, whatever it is given. -/
abbrev Step : Space ν → Space ν → Prop := Operation .any

theorem Step.assert (s : Space ν) (a : Atom ν) (t : Truth ν) : Step s (s.assert a t).2 :=
  Operation.assert s a trivial

theorem Step.update (s : Space ν) (a : Atom ν) (f : Valuation ν → Valuation ν) : Step s (s.update a f).2 :=
  Operation.update s a trivial

theorem Step.remove (s : Space ν) (h : Atom.Handle) : Step s (s.remove h).2 :=
  Operation.remove s trivial

theorem conduct_step : Conduct (Step (ν := ν)) :=
  conduct_operation (fun _ => trivial) fun _ => trivial

/-- Any number of operations. -/
abbrev Steps : Space ν → Space ν → Prop := Relation.ReflTransGen Step

/-- Operations lead to the space from an empty one. -/
def Reachable (s : Space ν) : Prop := ∃ config, Steps (empty config) s

theorem Operation.changes {s t : Space ν} (h : Operation c s t) : Changes s t := by
  cases h with
  | add a => exact s.changes_add a
  | assert a ht => exact s.changes_assert a _
  | get key => exact (revalued_touch ..).changes
  | update a hf => exact (revalued_update ..).changes
  | boost a amount => exact (revalued_touch ..).changes
  | remove hh => exact s.changes_remove _
  | query pattern => exact (s.read_query pattern).revalued.changes
  | forget => exact s.changes_forget

/-- What empty spaces have and operations keep, every reachable space has. -/
theorem Reachable.induct {P : Space ν → Prop} (hempty : ∀ config, P (empty config))
    (hstep : ∀ s t, P s → Step s t → P t) {s : Space ν} (h : s.Reachable) : P s := by
  obtain ⟨config, hsteps⟩ := h
  induction hsteps with
  | refl => exact hempty config
  | tail _ h ih => exact hstep _ _ ih h

/-- Every reachable space is filed. -/
theorem Reachable.filed {s : Space ν} (h : s.Reachable) : s.Filed :=
  h.induct filed_empty fun _ _ hs h => hs.changes h.changes

/-! ## Uses -/

/-- One use of a space: an operation, an evaluation or a program that runs code made of operations, or what an
agent does that knows the space. What agents take percepts for are truths that may be asserted. -/
inductive UseBy (c : Terms ν) : Space ν → Space ν → Prop
  | step {s t : Space ν} : Operation c s t → UseBy c s t
  | eval {e : Evaluator ν} (he : e.registry.Abides (Operation c)) (a : Atom ν) (depth : Nat) (s : Space ν) :
      UseBy c s (e.eval a depth s).2
  | program {e : Evaluator ν} (he : e.registry.Abides (Operation c)) (text : String) (s : Space ν) :
      UseBy c s (e.runProgram text s).2
  | perceive {ρ : Type} {a : Agent ρ ν} (hseen : c.asserts (.ofEvidence 1.0 a.config.perceptionCount))
      (percepts : List (Atom ν)) : UseBy c a.space (a.perceive percepts).2.space
  | select {ρ : Type} [RandomSource ρ] {a : Agent ρ ν} (ha : a.evaluator.registry.Abides (Operation c))
      (actions : List (Atom ν)) : UseBy c a.space (a.select actions).2.space
  | learn {ρ : Type} {a : Agent ρ ν} (ha : a.evaluator.registry.Abides (Operation c))
      (state action next : Atom ν) (reward : ν) : UseBy c a.space (a.learn state action next reward).2.space
  | cycle {ρ ω : Type} [RandomSource ρ] [World ω ν] {a : Agent ρ ν}
      (ha : a.evaluator.registry.Abides (Operation c))
      (hseen : c.asserts (.ofEvidence 1.0 a.config.perceptionCount)) (w : ω) :
      UseBy c a.space (a.step w).2.1.space
  | run {ρ ω : Type} [RandomSource ρ] [World ω ν] {a : Agent ρ ν}
      (ha : a.evaluator.registry.Abides (Operation c))
      (hseen : c.asserts (.ofEvidence 1.0 a.config.perceptionCount)) (w : ω) (goal : Option (Atom ν))
      (maxCycles : Nat) : UseBy c a.space (a.run w goal maxCycles).2.1.space

/-- Any number of uses. -/
abbrev UsesBy (c : Terms ν) : Space ν → Space ν → Prop := Relation.ReflTransGen (UseBy c)

/-- One use of a space, whatever its operations are given. -/
abbrev Use : Space ν → Space ν → Prop := UseBy .any

/-- Any number of uses, whatever their operations are given. -/
abbrev Uses : Space ν → Space ν → Prop := UsesBy .any

/-- Every use is made of operations. -/
theorem UseBy.steps (hc : Conduct (Operation c)) {s t : Space ν} (h : UseBy c s t) :
    Relation.ReflTransGen (Operation c) s t := by
  cases h with
  | step h => exact .single h
  | eval he a depth => exact Evaluator.eval_abides hc.query he a depth s
  | program he text => exact Evaluator.runProgram_abides hc.add hc.query he text s
  | perceive _ percepts => exact (Agent.follows_perceive hc _ percepts).steps
  | select ha actions => exact (Agent.follows_select hc.query ha actions).steps
  | learn ha state action next reward => exact (Agent.follows_learn hc ha state action next reward).steps
  | cycle ha _ w => exact (Agent.follows_step hc ha w).steps
  | run ha _ w goal maxCycles => exact (Agent.follows_runWithin hc ha goal maxCycles _ w).steps

theorem UsesBy.steps (hc : Conduct (Operation c)) {s t : Space ν} (h : UsesBy c s t) :
    Relation.ReflTransGen (Operation c) s t := by
  induction h with
  | refl => exact .refl
  | tail _ h ih => exact ih.trans (h.steps hc)

/-- What operations keep, uses keep. -/
theorem UsesBy.keeps (hc : Conduct (Operation c)) {P : Space ν → Prop}
    (hstep : ∀ s t, P s → Operation c s t → P t) {s t : Space ν} (h : UsesBy c s t) (hs : P s) : P t := by
  have hsteps := h.steps hc
  clear h
  induction hsteps with
  | refl => exact hs
  | tail _ h ih => exact hstep _ _ ih h

/-- Uses lead from an empty space to reachable ones. -/
theorem Uses.reachable {config : SpaceConfig ν} {s : Space ν} (h : Uses (empty config) s) : s.Reachable :=
  ⟨config, h.steps conduct_step⟩

end Space

end Atomspace
