import Atomspace.Proofs.Inquiries
/-!
# What is idle fades

A maintenance cycle moves priority from one level to the other, but no more than the first one loses
(`Priority.InRange.sum_decay_le`), and recency only falls. So as long as an atom stays stored and is not
accessed (`Space.Idle`), neither its short-term priority nor both levels together nor its effective priority
rise (`Space.Idle.fainter`), and a candidate for forgetting stays one (`Space.fainter_of_idle`).
-/

namespace Atomspace

variable {exp : Rat → Rat}

/-! ## Decay -/

namespace Priority

variable {p : Priority (Exact exp)}

theorem value_raw (p : Priority (Exact exp)) :
    p.raw.value = min (p.shortTerm.value + p.longTerm.value) 1 := by
  unfold raw
  rw [Exact.value_min, Exact.value_one]
  rfl

theorem InRange.raw_nonneg (hp : p.InRange) : 0 ≤ p.raw.value := by
  rw [value_raw]
  exact le_min (add_nonneg (Exact.inUnit_iff.1 hp.shortTerm).1 (Exact.inUnit_iff.1 hp.longTerm).1) zero_le_one

/-- What the short-term level loses in a cycle. -/
def loss (p : Priority (Exact exp)) (c : SpaceConfig (Exact exp)) : Rat :=
  p.shortTerm.value * (Scalar.clampUnit c.shortTermDecay).value

theorem InRange.loss_nonneg (hp : p.InRange) (c : SpaceConfig (Exact exp)) : 0 ≤ p.loss c :=
  mul_nonneg (Exact.inUnit_iff.1 hp.shortTerm).1 (Exact.inUnit_iff.1 (Exact.inUnit_clampUnit _)).1

theorem InRange.loss_le (hp : p.InRange) (c : SpaceConfig (Exact exp)) : p.loss c ≤ p.shortTerm.value :=
  mul_le_of_le_one_right (Exact.inUnit_iff.1 hp.shortTerm).1 (Exact.inUnit_iff.1 (Exact.inUnit_clampUnit _)).2

/-- What is left is kept, unless it is so little that it counts as nothing. -/
theorem InRange.shortTerm_decay_le (hp : p.InRange) (c : SpaceConfig (Exact exp)) :
    (p.decay c).shortTerm.value ≤ p.shortTerm.value - p.loss c := by
  unfold Priority.decay
  simp only
  split
  · rw [Exact.value_zero]
    exact sub_nonneg.2 (hp.loss_le c)
  · exact le_rfl

/-- The long-term level gains no more than the short-term level loses. -/
theorem InRange.longTerm_decay_le (hp : p.InRange) {c : SpaceConfig (Exact exp)} (hc : c.transfer.value ≤ 1) :
    (p.decay c).longTerm.value ≤ p.longTerm.value + p.loss c := by
  have hloss := hp.loss_nonneg c
  have hlong := (Exact.inUnit_iff.1 hp.longTerm).1
  obtain ⟨hshare, hwhole⟩ := Exact.inUnit_iff.1 (Exact.inUnit_clampUnit c.longTermDecay)
  have hvalue : (p.decay c).longTerm.value = max 0 (min 1 ((p.longTerm.value + p.loss c * c.transfer.value) *
      ((1.0 : Exact exp).value - (Scalar.clampUnit c.longTermDecay).value))) := Exact.value_clampUnit _
  have hsum : p.longTerm.value + p.loss c * c.transfer.value ≤ p.longTerm.value + p.loss c :=
    add_le_add_right (mul_le_of_le_one_right hloss hc) _
  rw [hvalue, Exact.value_one]
  refine max_le (add_nonneg hlong hloss) ((min_le_right _ _).trans ?_)
  rcases le_total 0 (p.longTerm.value + p.loss c * c.transfer.value) with hpos | hneg
  · exact (mul_le_of_le_one_right hpos (sub_le_self _ hshare)).trans hsum
  · exact (mul_nonpos_of_nonpos_of_nonneg hneg (sub_nonneg.2 hwhole)).trans (add_nonneg hlong hloss)

/-- Both levels together do not grow. -/
theorem InRange.raw_decay_le (hp : p.InRange) {c : SpaceConfig (Exact exp)} (hc : c.transfer.value ≤ 1) :
    (p.decay c).raw.value ≤ p.raw.value := by
  have hshort := hp.shortTerm_decay_le c
  have hlong := hp.longTerm_decay_le hc
  rw [value_raw, value_raw]
  exact min_le_min_right _ (by linarith)

end Priority

/-! ## Fainter valuations -/

namespace Valuation

/-- At its tick the second valuation gives an atom no more priority than the first one at its own. -/
structure Fainter (tau : Exact exp) (v : Valuation (Exact exp)) (now : Nat) (v' : Valuation (Exact exp))
    (now' : Nat) : Prop where
  shortTerm : v'.priority.shortTerm.value ≤ v.priority.shortTerm.value
  raw : v'.priority.raw.value ≤ v.priority.raw.value
  effective : (v'.effective now' tau).value ≤ (v.effective now tau).value

variable {tau : Exact exp} {u v w : Valuation (Exact exp)} {m n k : Nat}

theorem Fainter.refl (v : Valuation (Exact exp)) (now : Nat) : Fainter tau v now v now :=
  ⟨le_rfl, le_rfl, le_rfl⟩

theorem Fainter.trans (h : Fainter tau u m v n) (h' : Fainter tau v n w k) : Fainter tau u m w k :=
  ⟨h'.shortTerm.trans h.shortTerm, h'.raw.trans h.raw, h'.effective.trans h.effective⟩

/-- Recency does not rise as the clock goes on. -/
theorem recency_le (hexp : Monotone exp) (v : Valuation (Exact exp)) (tau : Exact exp) (h : m ≤ n) :
    (v.recency n tau).value ≤ (v.recency m tau).value := by
  have hpos : 0 < (Scalar.max tau Scalar.epsilon).value := by
    rw [Exact.value_max]
    exact lt_max_of_lt_right Exact.epsilon_pos
  have hage : ((m - v.lastAccess : Nat) : Rat) ≤ ((n - v.lastAccess : Nat) : Rat) :=
    Nat.cast_le.2 (Nat.sub_le_sub_right h _)
  show exp (-(((n - v.lastAccess : Nat) : Int) : Rat) / _) ≤ exp (-(((m - v.lastAccess : Nat) : Int) : Rat) / _)
  rw [Int.cast_natCast, Int.cast_natCast]
  exact hexp (div_le_div_of_nonneg_right (neg_le_neg hage) hpos.le)

/-- After its decay a valuation is fainter, at any later tick. -/
theorem fainter_decay (hpos : ∀ x, 0 < exp x) (hexp : Monotone exp) (hv : v.priority.InRange)
    {c : SpaceConfig (Exact exp)} (hc : c.transfer.value ≤ 1) (h : m ≤ n) :
    Fainter tau v m { v with priority := v.priority.decay c } n where
  shortTerm := (hv.shortTerm_decay_le c).trans (sub_le_self _ (hv.loss_nonneg c))
  raw := hv.raw_decay_le hc
  effective := mul_le_mul (hv.raw_decay_le hc) (recency_le hexp v tau h) (hpos _).le hv.raw_nonneg

end Valuation

namespace Space

/-! ## Idle atoms -/

section
variable {ν : Type} [Scalar ν]

/-- One operation during which the atom under a key stays stored and is not accessed: an operation on other
keys, a query that matches other atoms, or a maintenance cycle that does not forget the atom. -/
inductive Idle (key : String) : Space ν → Space ν → Prop
  | add (s : Space ν) {b : Atom ν} (h : b.key ≠ key) : Idle key s (s.add b).2
  | assert (s : Space ν) {b : Atom ν} (h : b.key ≠ key) (t : Truth ν) : Idle key s (s.assert b t).2
  | get (s : Space ν) {other : String} (h : other ≠ key) : Idle key s (s.get? other).2
  | update (s : Space ν) {b : Atom ν} (h : b.key ≠ key) (f : Valuation ν → Valuation ν) :
      Idle key s (s.update b f).2
  | boost (s : Space ν) {b : Atom ν} (h : b.key ≠ key) (amount : ν) : Idle key s (s.boost b amount).2
  | remove (s : Space ν) {b : Atom.Handle} (h : b.key ≠ key) : Idle key s (s.remove b).2
  | query (s : Space ν) {pattern : Atom ν} (h : ∀ m ∈ s.hits pattern, m.atom.key ≠ key) :
      Idle key s (s.query pattern).2
  | forget (s : Space ν) (h : s.forget.2.contains key = true) : Idle key s s.forget.2

variable {s t : Space ν} {key : String}

theorem Idle.step (h : Idle key s t) : Step s t := by
  cases h with
  | add => exact .add ..
  | assert => exact .assert ..
  | get => exact .get ..
  | update => exact .update ..
  | boost => exact .boost ..
  | remove => exact .remove ..
  | query => exact .query ..
  | forget => exact .forget ..

/-! ### The slot of an idle atom -/

theorem get?_touch_of_ne (s : Space ν) {other : String} (h : other ≠ key) (amount : ν) :
    (s.touch other amount).slots.get? key = s.slots.get? key := by
  rw [touch, Table.get?_modify, if_neg (Ne.symm h)]

theorem get?_add_of_ne (s : Space ν) {b : Atom ν} (h : b.key ≠ key) :
    (s.add b).2.slots.get? key = s.slots.get? key := by
  unfold add
  simp only
  rw [get?_touch_of_ne _ h]
  split
  · rfl
  · rw [slots_store, Table.get?_insert, if_neg (Ne.symm h)]

theorem get?_update_of_ne (s : Space ν) {b : Atom ν} (h : b.key ≠ key) (f : Valuation ν → Valuation ν) :
    (s.update b f).2.slots.get? key = s.slots.get? key := by
  unfold update
  split
  · rfl
  · rw [Table.get?_modify, if_neg (Ne.symm h)]

theorem get?_drop_of_ne (s : Space ν) {other : String} (h : other ≠ key) :
    (s.drop other).slots.get? key = s.slots.get? key := by
  rw [slots_drop, Table.get?_erase, if_neg (Ne.symm h)]

theorem get?_forget_of_stored (h : s.forget.2.contains key = true) :
    s.forget.2.slots.get? key = (s.slots.get? key).map s.decayed := by
  have hcases : s.forget.2.slots.get? key = none ∨
      s.forget.2.slots.get? key = (s.slots.get? key).map s.decayed := by
    refine forget_of_drop (P := fun t => t.slots.get? key = none ∨
      t.slots.get? key = (s.slots.get? key).map s.decayed) (fun t other _ _ _ ht => ?_) (.inr (s.get?_fade key))
    by_cases hother : other = key
    · exact .inl (by rw [slots_drop, Table.get?_erase, if_pos hother.symm])
    · rwa [get?_drop_of_ne t hother]
  refine hcases.resolve_left fun hnone => ?_
  rw [contains, Table.contains, hnone] at h
  cases h

theorem config_forget (s : Space ν) : s.forget.2.config = s.config :=
  forget_of_drop (P := fun t => t.config = s.config) (fun t key _ _ _ h => (t.config_drop key).trans h) rfl

end

/-- An idle atom keeps its valuation, or is in a maintenance cycle and decays once. -/
theorem Idle.slot {s t : Space (Exact exp)} {key : String} (h : Idle key s t) (hs : s.Filed) :
    t.config = s.config ∧
      (t.clock = s.clock ∧ t.slots.get? key = s.slots.get? key ∨
        t.clock = s.clock + 1 ∧ t.slots.get? key = (s.slots.get? key).map s.decayed) := by
  cases h with
  | add hb => exact ⟨s.config_add _, .inl ⟨s.clock_add _, s.get?_add_of_ne hb⟩⟩
  | @assert b hb truth =>
    have hkey : (s.add b).1.key ≠ key := by rwa [key_add hs]
    exact ⟨s.config_assert _ _, .inl ⟨(clock_update ..).trans (s.clock_add _),
      (get?_update_of_ne _ hkey _).trans (s.get?_add_of_ne hb)⟩⟩
  | get hother => exact ⟨rfl, .inl ⟨rfl, s.get?_touch_of_ne hother _⟩⟩
  | update hb f => exact ⟨(s.revalued_update _ f).config, .inl ⟨s.clock_update _ f, s.get?_update_of_ne hb f⟩⟩
  | boost hb amount => exact ⟨rfl, .inl ⟨rfl, s.get?_touch_of_ne hb amount⟩⟩
  | remove hb =>
    unfold Space.remove
    split
    · exact ⟨rfl, .inl ⟨rfl, rfl⟩⟩
    · exact ⟨s.config_drop _, .inl ⟨s.clock_drop _, s.get?_drop_of_ne hb⟩⟩
  | @query pattern hhits =>
    have haccessed := s.accessed_query pattern
    refine ⟨haccessed.config, .inl ⟨haccessed.clock, ?_⟩⟩
    by_contra hne
    obtain ⟨m, hm, hatom⟩ := haccessed.touched key hne
    exact hhits m hm (hs.keyed key _ hatom)
  | forget hstored => exact ⟨s.config_forget, .inr ⟨s.clock_forget, get?_forget_of_stored hstored⟩⟩

/-! ## Fading -/

/-- How the slot in the one space compares with the slot in the other: it is of the same atom, and gives it no
more priority, neither now nor after the decay of the next cycle. -/
structure Fainter (s : Space (Exact exp)) (slot : Slot (Exact exp)) (t : Space (Exact exp))
    (slot' : Slot (Exact exp)) : Prop where
  atom : slot'.atom = slot.atom
  now : Valuation.Fainter s.config.recencyTau slot.value s.clock slot'.value t.clock
  next : Valuation.Fainter s.config.recencyTau (s.decayed slot).value (s.clock + 1) (t.decayed slot').value
    (t.clock + 1)

section
variable (hpos : ∀ x, 0 < exp x) (hexp : Monotone exp) {s t : Space (Exact exp)} {key : String}
  {slot : Slot (Exact exp)}
include hpos hexp

/-- One idle operation. -/
theorem Idle.fainter (h : Idle key s t) (hs : s.Filed) (htransfer : s.config.transfer.value ≤ 1)
    (hslot : s.slots.get? key = some slot) (hrange : slot.value.priority.InRange) :
    ∃ slot', t.slots.get? key = some slot' ∧ slot'.value.priority.InRange ∧ Fainter s slot t slot' := by
  obtain ⟨hconfig, ⟨hclock, hsame⟩ | ⟨hclock, hdecayed⟩⟩ := h.slot hs
  · refine ⟨slot, hsame.trans hslot, hrange, rfl, ?_, ?_⟩
    · rw [hclock]
      exact .refl ..
    · unfold decayed
      rw [hclock, hconfig]
      exact .refl ..
  · have hnext : (s.decayed slot).value.priority.InRange := hrange.decay s.config
    refine ⟨s.decayed slot, by rw [hdecayed, hslot]; rfl, hnext, rfl, ?_, ?_⟩
    · rw [hclock]
      exact Valuation.fainter_decay hpos hexp hrange htransfer (Nat.le_succ _)
    · rw [hclock]
      unfold decayed at hnext ⊢
      rw [hconfig]
      exact Valuation.fainter_decay hpos hexp hnext htransfer (Nat.le_succ _)

/-- As long as an atom with priorities in range is idle, they only fall, also from one maintenance cycle to the
next; and what a cycle could have forgotten is a candidate in each later one. -/
theorem fainter_of_idle (hs : s.Reachable) (htransfer : s.config.transfer.value ≤ 1)
    (hslot : s.slots.get? key = some slot) (hrange : slot.value.priority.InRange)
    (h : Relation.ReflTransGen (Idle key) s t) :
    ∃ slot', t.slots.get? key = some slot' ∧ Fainter s slot t slot' ∧
      (s.Dispensable slot → key ∈ t.fade.forgettable) := by
  -- the invariant of an idle run
  have hrun : t.Reachable ∧ t.config = s.config ∧ ∃ slot', t.slots.get? key = some slot' ∧
      slot'.value.priority.InRange ∧ Fainter s slot t slot' := by
    induction h with
    | refl => exact ⟨hs, rfl, slot, hslot, hrange, rfl, .refl .., .refl ..⟩
    | @tail u t _ hstep ih =>
      obtain ⟨hu, hconfig, slot', hslot', hrange', hfainter⟩ := ih
      obtain ⟨slot'', hslot'', hrange'', hlast⟩ :=
        hstep.fainter hpos hexp hu.filed (hconfig ▸ htransfer) hslot' hrange'
      refine ⟨hu.step hstep.step, (hstep.slot hu.filed).1.trans hconfig, slot'', hslot'', hrange'', ?_, ?_, ?_⟩
      · exact hlast.atom.trans hfainter.atom
      · exact hfainter.now.trans (hconfig ▸ hlast.now)
      · exact hfainter.next.trans (hconfig ▸ hlast.next)
  obtain ⟨ht, hconfig, slot', hslot', -, hfainter⟩ := hrun
  refine ⟨slot', hslot', hfainter, fun hdispensable => ?_⟩
  obtain ⟨hvar, hprotected, hlow⟩ := hdispensable
  have hlow' : Scalar.lt (t.standing slot') t.config.minPriority = true := by
    have hstanding : (t.standing slot').value ≤ (s.standing slot).value := by
      unfold standing
      rw [hconfig]
      exact hfainter.next.effective
    rw [hconfig]
    exact decide_eq_true (hstanding.trans_lt (of_decide_eq_true hlow))
  rw [t.perm_forgettable.mem_iff, keys_weighed]
  refine List.mem_map.2 ⟨(key, slot'), List.mem_filter.2 ⟨Table.mem_entries_of_get? hslot', ?_⟩, rfl⟩
  exact decide_eq_true ⟨hfainter.atom ▸ hvar, hfainter.atom ▸ hprotected, hlow'⟩

end

/-! ### A symbol that nobody asks for -/

/-- A function that falls once, standing in for the exponential one. -/
def waning (x : Rat) : Rat :=
  if x < 0 then 1 / 2 else 1

theorem waning_pos (x : Rat) : 0 < waning x := by
  unfold waning
  split <;> norm_num

theorem waning_mono : Monotone waning := by
  intro x y hxy
  unfold waning
  split
  · split <;> norm_num
  · rename_i hx
    rw [if_neg fun hy => hx (hxy.trans_lt hy)]

/-- A space that holds a symbol, where everything that may be forgotten is a candidate. -/
def lonely : Space (Exact waning) :=
  ((empty { (default : SpaceConfig (Exact waning)) with minPriority := 1 }).add (.symbol "a")).2

/-- Two cycles later, with a variable stored in between, it is a candidate still, of no more priority. -/
theorem fainter_of_idle_lonely :
    let t := (lonely.forget.2.add (.var "x")).2.forget.2
    ∃ slot slot', lonely.slots.get? "a" = some slot ∧ t.slots.get? "a" = some slot' ∧
      slot'.value.priority.raw.value ≤ slot.value.priority.raw.value ∧ "a" ∈ t.fade.forgettable := by
  intro t
  have hreach : lonely.Reachable := ⟨_, .single (.add _ (.symbol "a"))⟩
  have hidle : Relation.ReflTransGen (Idle "a") lonely t :=
    .tail (.tail (.single (.forget _ (by decide +kernel))) (.add _ (b := .var "x") (by decide)))
      (.forget _ (by decide +kernel))
  have hsome : (lonely.slots.get? "a").any fun slot => decide (lonely.Dispensable slot ∧
      Scalar.InUnit slot.value.priority.shortTerm ∧ Scalar.InUnit slot.value.priority.longTerm) := by
    decide +kernel
  obtain ⟨hstored, hlow⟩ := (Option.any_eq_true_iff_get _ _).1 hsome
  obtain ⟨hdispensable, hshort, hlong⟩ := of_decide_eq_true hlow
  have hslot := (Option.some_get hstored).symm
  have htransfer : lonely.config.transfer.value ≤ 1 := by decide +kernel
  obtain ⟨slot', hslot', hfainter, hcandidate⟩ :=
    fainter_of_idle waning_pos waning_mono hreach htransfer hslot ⟨hshort, hlong⟩ hidle
  exact ⟨_, slot', hslot, hslot', hfainter.now.raw, hcandidate hdispensable⟩

end Space

end Atomspace
