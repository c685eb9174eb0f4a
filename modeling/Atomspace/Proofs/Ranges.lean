import Atomspace.Proofs.Agreement
import Atomspace.Proofs.Weights
import Atomspace.Proofs.Writing
/-!
# Valuations stay in range

Truths and priorities are clamped where they are made, so no rate, boost or decay of a configuration
leads out of their ranges (`Truth.inRange_merge`, `Priority.InRange.boost`, `Priority.InRange.decay`).
Nothing is accessed in the future, because the clock does not go back (`Operation.clock_le`).

An update may put any numbers in place of the old ones. What is kept in range is kept by the updates that
make their truths and priorities (`Valuation.Making`).
-/

namespace Atomspace

/-! ## Entries -/

namespace Table

variable {α : Type}

/-- All entries have a property. -/
def All (P : α → Prop) (t : Table α) : Prop :=
  ∀ e ∈ t.entries, P e.2

variable {P : α → Prop} {t : Table α}

theorem All.get? (ht : t.All P) {key : String} {a : α} (h : t.get? key = some a) : P a :=
  ht _ (mem_entries_of_get? h)

theorem All.map (ht : t.All P) {Q : α → Prop} {f : α → α} (hf : ∀ a, P a → Q (f a)) :
    Table.All Q ⟨t.entries.map fun e => (e.1, f e.2)⟩ := by
  intro e he
  obtain ⟨old, hold, rfl⟩ := List.mem_map.1 he
  exact hf _ (ht old hold)

theorem All.modify (ht : t.All P) (key : String) {f : α → α} (hf : ∀ a, P a → P (f a)) :
    (t.modify key f).All P := by
  intro e he
  obtain ⟨old, hold, rfl⟩ := List.mem_map.1 he
  split
  · exact hf _ (ht old hold)
  · exact ht old hold

theorem All.insert (ht : t.All P) (key : String) {a : α} (ha : P a) : (t.insert key a).All P := by
  unfold Table.insert
  split
  · exact ht.modify key fun _ _ => ha
  · intro e he
    rcases List.mem_append.1 he with he | he
    · exact ht e he
    · rw [List.mem_singleton.1 he]
      exact ha

theorem All.erase (ht : t.All P) (key : String) : (t.erase key).All P :=
  fun e he => ht e (List.mem_filter.1 he).1

end Table

variable {ν : Type} [Scalar ν]

/-! ## Ranges -/

/-- The strength is from zero to one, and the count from zero up. -/
structure Truth.InRange (t : Truth ν) : Prop where
  strength : Scalar.InUnit t.strength
  count : Scalar.le 0 t.count = true

/-- Both levels are from zero to one. -/
structure Priority.InRange (p : Priority ν) : Prop where
  shortTerm : Scalar.InUnit p.shortTerm
  longTerm : Scalar.InUnit p.longTerm

/-- Truth and priority are in range, and the last access was no later than at the given tick. -/
structure Valuation.InRange (now : Nat) (v : Valuation ν) : Prop where
  truth : v.truth.InRange
  priority : v.priority.InRange
  lastAccess : v.lastAccess ≤ now

/-- The valuations of all stored atoms are in range. -/
def Space.InRange (s : Space ν) : Prop :=
  s.slots.All fun slot => slot.value.InRange s.clock

/-! ## Updates that make their values -/

/-- The truths that an update may set: the old one, one made from evidence, and a merger of any two. -/
inductive Truth.Makes (t : Truth ν) : Truth ν → Prop
  | same : Makes t t
  | ofEvidence (strength count : ν) : Makes t (.ofEvidence strength count)
  | merge (u v : Truth ν) : Makes t (u.merge v)

/-- The priorities that an update may set: the old one, one made from levels, and those boosted by any
amount at any rate. -/
inductive Priority.Makes (p : Priority ν) : Priority ν → Prop
  | same : Makes p p
  | ofLevels (shortTerm longTerm : ν) : Makes p (.ofLevels shortTerm longTerm)
  | boost {q : Priority ν} (hq : Makes p q) (amount rate : ν) : Makes p (q.boost amount rate)

/-- The change sets truths and priorities that are made, and none that are put together from numbers. -/
def Valuation.Making (f : Valuation ν → Valuation ν) : Prop :=
  ∀ v : Valuation ν, v.truth.Makes (f v).truth ∧ v.priority.Makes (f v).priority

namespace Space

/-- Updates make the values that they set. -/
def Terms.tempered : Terms ν :=
  { Terms.any with updates := Valuation.Making }

theorem conduct_tempered : Conduct (Operation (.tempered : Terms ν)) :=
  conduct_operation (fun _ => trivial) fun _ => trivial

/-! ## The clock -/

theorem clock_store (s : Space ν) (a : Atom ν) : (s.store a).clock = s.clock := by
  unfold store file
  simp only
  split
  · split <;> rfl
  · rfl

theorem clock_add (s : Space ν) (a : Atom ν) : (s.add a).2.clock = s.clock := by
  unfold add
  simp only
  rw [(read_touch ..).clock]
  split
  · rfl
  · exact s.clock_store a

theorem clock_update (s : Space ν) (a : Atom ν) (f : Valuation ν → Valuation ν) :
    (s.update a f).2.clock = s.clock := by
  unfold update
  split <;> rfl

theorem clock_forget (s : Space ν) : s.forget.2.clock = s.clock + 1 :=
  forget_of_drop (P := fun t => t.clock = s.clock + 1) (fun t key _ _ _ h => (t.clock_drop key).trans h) rfl

/-- Only a maintenance cycle moves the clock. -/
theorem Operation.clock_le {c : Terms ν} {s t : Space ν} (h : Operation c s t) : s.clock ≤ t.clock := by
  cases h with
  | add a => exact (s.clock_add a).ge
  | assert a ht => exact ((clock_update ..).trans (s.clock_add a)).ge
  | get key => exact Nat.le_refl _
  | update a hf => exact (s.clock_update a _).ge
  | boost a amount => exact Nat.le_refl _
  | remove hh =>
    unfold Space.remove
    split
    · exact Nat.le_refl _
    · exact (s.clock_drop _).ge
  | query pattern => exact (s.read_query pattern).clock.ge
  | forget => exact s.clock_forget ▸ Nat.le_succ _

end Space

/-! ## Making values -/

section
variable {exp : Rat → Rat}

theorem Truth.inRange_ofEvidence (strength count : Exact exp) : (ofEvidence strength count).InRange := by
  constructor
  · unfold ofEvidence
    simp only
    rw [Exact.isNaN_eq_false strength, if_neg Bool.false_ne_true]
    exact Exact.inUnit_clampUnit strength
  · rw [Exact.le_iff, value_count_ofEvidence]
    exact le_max_right _ _

theorem Truth.inRange_merge (t u : Truth (Exact exp)) : (t.merge u).InRange := by
  unfold merge
  simp only
  split
  · exact inRange_ofEvidence _ _
  · exact inRange_ofEvidence _ _

theorem Truth.inRange_unknown : (unknown : Truth (Exact exp)).InRange := by
  constructor
  · rw [Exact.inUnit_iff, unknown, Exact.value_half]
    norm_num
  · rw [Exact.le_iff, unknown, Exact.value_zero]
    rfl

theorem Truth.InRange.makes {t u : Truth (Exact exp)} (ht : t.InRange) (h : t.Makes u) : u.InRange := by
  cases h with
  | same => exact ht
  | ofEvidence strength count => exact inRange_ofEvidence strength count
  | merge u v => exact inRange_merge u v

theorem Priority.inRange_ofLevels (shortTerm longTerm : Exact exp) :
    (ofLevels shortTerm longTerm).InRange :=
  ⟨Exact.inUnit_clampUnit _, Exact.inUnit_clampUnit _⟩

theorem Priority.InRange.boost {p : Priority (Exact exp)} (hp : p.InRange) (amount rate : Exact exp) :
    (p.boost amount rate).InRange := by
  unfold Priority.boost
  simp only
  refine ⟨Exact.inUnit_clampUnit _, ?_⟩
  split
  · exact Exact.inUnit_clampUnit _
  · exact hp.longTerm

theorem Priority.InRange.decay {p : Priority (Exact exp)} (hp : p.InRange) (c : SpaceConfig (Exact exp)) :
    (p.decay c).InRange := by
  unfold Priority.decay
  simp only
  refine ⟨?_, Exact.inUnit_clampUnit _⟩
  obtain ⟨hpos, hle⟩ := Exact.inUnit_iff.1 hp.shortTerm
  obtain ⟨hshare, hwhole⟩ := Exact.inUnit_iff.1 (Exact.inUnit_clampUnit c.shortTermDecay)
  have hlost := mul_le_of_le_one_right hpos hwhole
  have hpart := mul_nonneg hpos hshare
  rw [Exact.inUnit_iff]
  split
  · rw [Exact.value_zero]
    exact ⟨le_refl 0, zero_le_one⟩
  · exact ⟨sub_nonneg.2 hlost, (sub_le_self _ hpart).trans hle⟩

theorem Priority.InRange.makes {p q : Priority (Exact exp)} (hp : p.InRange) (h : p.Makes q) : q.InRange := by
  induction h with
  | same => exact hp
  | ofLevels shortTerm longTerm => exact inRange_ofLevels shortTerm longTerm
  | boost _ amount rate ih => exact ih.boost amount rate

end

/-! ## Operations -/

namespace Space

variable {exp : Rat → Rat} {s t : Space (Exact exp)}

theorem InRange.touch (hs : s.InRange) (key : String) (amount : Exact exp) : (s.touch key amount).InRange :=
  Table.All.modify hs key fun _ hslot =>
    ⟨hslot.truth, hslot.priority.boost amount s.config.longTermRate, Nat.le_refl _⟩

theorem InRange.store (hs : s.InRange) (a : Atom (Exact exp)) : (s.store a).InRange := by
  unfold Space.InRange
  rw [slots_store, clock_store]
  exact Table.All.insert hs a.key
    ⟨Truth.inRange_unknown, Priority.inRange_ofLevels _ _, Nat.le_refl s.clock⟩

theorem InRange.add (hs : s.InRange) (a : Atom (Exact exp)) : (s.add a).2.InRange := by
  unfold Space.add
  simp only
  split
  · exact hs.touch _ _
  · exact (hs.store a).touch _ _

theorem InRange.update (hs : s.InRange) (a : Atom (Exact exp))
    {f : Valuation (Exact exp) → Valuation (Exact exp)} (hf : Valuation.Making f) :
    (s.update a f).2.InRange := by
  unfold Space.update
  split
  · exact hs
  · rename_i old hold
    obtain ⟨slot, hslot, rfl⟩ := Option.map_eq_some_iff.1 hold
    have hvalue := Table.All.get? hs hslot
    have htruth := hvalue.truth.makes (hf slot.value).1
    have hpriority := hvalue.priority.makes (hf slot.value).2
    refine Table.All.modify hs a.key fun _ _ => ?_
    simp only
    -- the boost of a revision is on top of what the update makes
    split
    · exact ⟨htruth, hpriority.boost _ _, Nat.le_refl _⟩
    · exact ⟨htruth, hpriority, Nat.le_refl _⟩

theorem InRange.assert (hs : s.InRange) (a : Atom (Exact exp)) (truth : Truth (Exact exp)) :
    (s.assert a truth).2.InRange :=
  (hs.add a).update _ fun v => ⟨.merge v.truth truth, .same⟩

theorem InRange.drop (hs : s.InRange) (key : String) : (s.drop key).InRange := by
  unfold Space.InRange
  rw [slots_drop, clock_drop]
  exact Table.All.erase hs key

theorem InRange.fade (hs : s.InRange) : s.fade.InRange :=
  Table.All.map (f := s.decayed) hs fun _ hslot =>
    ⟨hslot.truth, hslot.priority.decay s.config, Nat.le_succ_of_le hslot.lastAccess⟩

theorem InRange.query (hs : s.InRange) (pattern : Atom (Exact exp)) : (s.query pattern).2.InRange :=
  examineAll_of_touch (P := InRange) (fun _ h => h) (fun _ key amount h => h.touch key amount) pattern _ hs

theorem InRange.operation (hs : s.InRange) (h : Operation .tempered s t) : t.InRange := by
  cases h with
  | add a => exact hs.add a
  | assert a ht => exact hs.assert a _
  | get key => exact hs.touch _ _
  | update a hf => exact hs.update a hf
  | boost a amount => exact hs.touch _ _
  | remove hh =>
    unfold Space.remove
    split
    · exact hs
    · exact hs.drop _
  | query pattern => exact hs.query pattern
  | forget => exact forget_of_drop (P := InRange) (fun _ key _ _ _ h => h.drop key) hs.fade

theorem inRange_empty (config : SpaceConfig (Exact exp)) : (empty config).InRange :=
  empty_of_add (P := InRange) (fun _ he => nomatch he) fun _ _ _ hs => hs.add _

/-- Whatever the configurations are, what uses leave behind is in range, and later uses do not turn the
clock back. -/
theorem inRange_of_usesBy {config : SpaceConfig (Exact exp)} (h : UsesBy .tempered (empty config) s) :
    s.InRange ∧ ∀ t, UsesBy .tempered s t → s.clock ≤ t.clock := by
  constructor
  · exact h.keeps conduct_tempered (fun _ _ hs hstep => hs.operation hstep) (inRange_empty config)
  · intro t ht
    exact ht.keeps (P := fun t => s.clock ≤ t.clock) conduct_tempered (fun _ _ hs hstep => hs.trans hstep.clock_le)
      (Nat.le_refl _)

/-- An agent whose configurations leave every range. -/
def unruly : Agent SplitMix (Exact fun _ => 1) where
  config := { (default : AgentConfig (Exact fun _ => 1)) with
    learningRate := 9, perceptionCount := -3, perceptionBoost := -1, rewardBoost := 5 }
  evaluator := { config := default, registry := .standard }
  space := empty { (default : SpaceConfig (Exact fun _ => 1)) with
    initialShortTerm := 7, accessBoost := -2, shortTermDecay := 3, transfer := -5, longTermDecay := -1
    longTermRate := -4, revisionBoost := 100 }
  random := {}

/-- An update that makes a truth and a priority of numbers out of range. -/
def provoke (s : Space (Exact fun _ => 1)) : Space (Exact fun _ => 1) :=
  (s.update (.symbol "=") fun v =>
    { v with truth := .ofEvidence 5 (-3), priority := v.priority.boost 9 (-1) }).2

/-- After a cycle in a chain and such an update all it knows is in range, and still is after a maintenance
cycle. -/
theorem inRange_of_usesBy_unruly :
    let s := provoke (unruly.step (ChainWorld.threeStates : ChainWorld (Exact fun _ => 1))).2.1.space
    s.InRange ∧ s.forget.2.InRange ∧ s.clock ≤ s.forget.2.clock := by
  intro s
  have hstandard : unruly.evaluator.registry.Abides (Operation .tempered) := Registry.abides_standard .query
  have hprovoke (s : Space (Exact fun _ => 1)) : UsesBy .tempered s (provoke s) :=
    .single (.step (.update s _ fun _ => ⟨.ofEvidence 5 (-3), .boost .same 9 (-1)⟩))
  have huses : UsesBy .tempered unruly.space s :=
    .trans (.single (.cycle hstandard trivial ChainWorld.threeStates)) (hprovoke _)
  have hforget : UseBy .tempered s s.forget.2 := .step (.forget s)
  obtain ⟨hrange, hclock⟩ := inRange_of_usesBy huses
  exact ⟨hrange, (inRange_of_usesBy (huses.tail hforget)).1, hclock _ (.single hforget)⟩

end Space

end Atomspace
