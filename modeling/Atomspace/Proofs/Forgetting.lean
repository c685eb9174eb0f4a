import Atomspace.Proofs.Agreement
import Atomspace.Proofs.Bits
/-!
# Maintenance cycles

A maintenance cycle does what its report says (`forget_cycle`). What it may forget is fixed before the
first atom goes (`endangered`): dropping atoms changes nothing about those that stay, so the check that
comes with each removal always passes (`shrink_eq`), and the cycle forgets a beginning of the
candidates in the order of their rank.
-/

namespace Atomspace

/-! ## Rank and order -/

/-- The ranking is total, and what ranks at most as high is not greater. -/
class Ranked (ν : Type) [Scalar ν] : Prop where
  total : ∀ x y : ν, (Scalar.rankLE x y || Scalar.rankLE y x) = true
  trans : ∀ x y z : ν, Scalar.rankLE x y = true → Scalar.rankLE y z = true → Scalar.rankLE x z = true
  not_lt : ∀ x y : ν, Scalar.rankLE x y = true → Scalar.lt y x = false

instance : Ranked Double where
  total x y := by
    show (decide (x.rank ≤ y.rank) || decide (y.rank ≤ x.rank)) = true
    simpa using le_total x.rank y.rank
  trans x y z hxy hyz := by
    exact decide_eq_true ((of_decide_eq_true hxy : x.rank ≤ y.rank).trans (of_decide_eq_true hyz))
  not_lt x y hxy := by
    have hrank : x.rank ≤ y.rank := of_decide_eq_true hxy
    refine decide_eq_false fun hlt => ?_
    have := Double.rank_lt_of_lt hlt
    omega

instance (exp : Rat → Rat) : Ranked (Exact exp) where
  total x y := by
    show (decide (x.value ≤ y.value) || decide (y.value ≤ x.value)) = true
    simpa using le_total x.value y.value
  trans x y z hxy hyz := by
    exact decide_eq_true ((of_decide_eq_true hxy : x.value ≤ y.value).trans (of_decide_eq_true hyz))
  not_lt x y hxy := by
    exact decide_eq_false (not_lt_of_ge (of_decide_eq_true hxy : x.value ≤ y.value))

/-! ## Tables that lose entries -/

namespace Table

variable {α : Type}

theorem erase_of_free {t : Table α} {key : String} (h : t.get? key = none) : t.erase key = t := by
  obtain ⟨entries⟩ := t
  have hkeys : key ∉ Table.keys ⟨entries⟩ := by
    rw [mem_keys_iff, contains, h]
    simp
  simp only [erase, mk.injEq]
  refine List.filter_eq_self.2 fun e he => ?_
  have hne : e.1 ≠ key := by
    rintro rfl
    exact hkeys (List.mem_map_of_mem he)
  simpa using hne

theorem size_erase {t : Table α} (hkeys : t.keys.Nodup) {key : String} (h : t.contains key = true) :
    (t.erase key).size = t.size - 1 := by
  have hlength : (t.erase key).keys.length = t.keys.length - 1 := by
    rw [keys_erase, ← List.length_erase_of_mem ((t.mem_keys_iff key).2 h), hkeys.erase_eq_filter]
    rfl
  simpa [keys, size] using hlength

end Table

namespace Space

variable {ν : Type} [Scalar ν]

/-! ## What a cycle looks at -/

/-- The slot after the decay of one cycle. -/
def decayed (s : Space ν) (slot : Slot ν) : Slot ν :=
  { slot with value := { slot.value with priority := slot.value.priority.decay s.config } }

/-- The effective priority in the next cycle, after its decay and at its tick. -/
def standing (s : Space ν) (slot : Slot ν) : ν :=
  (s.decayed slot).value.effective (s.clock + 1) s.config.recencyTau

/-- Neither a variable nor a protected symbol, and in the next cycle below the least priority. -/
def Dispensable (s : Space ν) (slot : Slot ν) : Prop :=
  slot.atom.isVar = false ∧ isProtected slot.atom = false ∧
    Scalar.lt (s.standing slot) s.config.minPriority = true

instance (s : Space ν) (slot : Slot ν) : Decidable (s.Dispensable slot) :=
  inferInstanceAs (Decidable (_ ∧ _ ∧ _))

/-- The keys of the atoms that the next cycle may forget. -/
def endangered (s : Space ν) : Finset String :=
  ((s.slots.entries.filter fun e => s.Dispensable e.2).map Prod.fst).toFinset

/-- The keys that the one space holds and the other does not. -/
def forgotten (s t : Space ν) : Finset String :=
  (s.slots.keys.filter fun key => !t.contains key).toFinset

/-- The report of a maintenance cycle, and what became of the space. -/
structure Cycle (s : Space ν) (r : ForgetReport) (t : Space ν) : Prop where
  tick : r.tick = s.clock + 1
  decayed : r.decayed = s.size
  candidates : r.candidates = s.endangered.card
  removed : r.removed = (s.forgotten t).card
  sizeBefore : r.sizeBefore = s.size
  sizeAfter : r.sizeAfter = t.size
  /-- There is reason to forget in a large space, and when much of it may be forgotten. -/
  triggered : r.triggered = true ↔ s.config.triggerSize < s.size ∨
    Scalar.lt (s.config.candidateFraction * Scalar.ofInt s.size) (Scalar.ofInt s.endangered.card) = true
  idle : r.triggered = false → s.forgotten t = ∅
  /-- Forgetting stops at the target size. -/
  active : r.triggered = true →
    (s.forgotten t).card = min s.endangered.card (s.size - targetSize s.config)
  forgotten_subset : s.forgotten t ⊆ s.endangered
  /-- Nothing is forgotten before what is less important. -/
  lowest : ∀ key ∈ s.forgotten t, ∀ other ∈ s.endangered \ s.forgotten t, ∀ slot slot',
    s.slots.get? key = some slot → s.slots.get? other = some slot' →
      Scalar.lt (s.standing slot') (s.standing slot) = false
  /-- What stays decays once, and nothing else changes. -/
  slots : t.slots.entries = (s.slots.entries.filter fun e => e.1 ∉ s.forgotten t).map
    fun e => (e.1, s.decayed e.2)
  clock : t.clock = s.clock + 1
  config : t.config = s.config

/-! ## Decay -/

theorem get?_fade (s : Space ν) (key : String) :
    s.fade.slots.get? key = (s.slots.get? key).map s.decayed :=
  Table.get?_mapValues s.slots key s.decayed

theorem size_fade (s : Space ν) : s.fade.size = s.size := by
  simp [size, Table.size, fade]

theorem isForgettable_fade (s : Space ν) (slot : Slot ν) :
    s.fade.isForgettable (s.decayed slot) = decide (s.Dispensable slot) := by
  rw [Bool.eq_iff_iff, decide_eq_true_iff]
  unfold isForgettable Dispensable
  simp only [Bool.and_eq_true, Bool.not_eq_true']
  show (Scalar.lt (s.standing slot) s.config.minPriority = true ∧ slot.atom.isVar = false) ∧ _ ↔ _
  tauto

/-- The candidates of a cycle with their standings, in the order of the table. -/
def weighed (s : Space ν) : List (String × ν) :=
  (s.slots.entries.filter fun e => s.Dispensable e.2).map fun e => (e.1, s.standing e.2)

theorem forgettable_fade (s : Space ν) : s.fade.forgettable =
    (s.weighed.mergeSort fun x y => Scalar.rankLE x.2 y.2).map Prod.fst := by
  unfold forgettable weighed
  simp only
  congr 2
  show List.filterMap _ (s.slots.entries.map fun e => (e.1, s.decayed e.2)) = _
  rw [List.filterMap_map]
  induction s.slots.entries with
  | nil => rfl
  | cons e entries ih =>
    rw [List.filterMap_cons, List.filter_cons, ih, Function.comp_apply, isForgettable_fade]
    by_cases h : s.Dispensable e.2
    · simp only [decide_eq_true h, if_true, List.map_cons]
      rfl
    · simp only [decide_eq_false h, Bool.false_eq_true, if_false]

/-! ## Removal -/

theorem slots_drop (s : Space ν) (key : String) : (s.drop key).slots = s.slots.erase key := by
  unfold drop
  split
  · rename_i h
    rw [Table.erase_of_free h]
  · rename_i slot h
    simp only
    split <;> rfl

theorem clock_drop (s : Space ν) (key : String) : (s.drop key).clock = s.clock := by
  unfold drop
  split
  · rfl
  · simp only
    split <;> rfl

theorem config_drop (s : Space ν) (key : String) : (s.drop key).config = s.config := by
  unfold drop
  split
  · rfl
  · simp only
    split <;> rfl

theorem isForgettable_drop (s : Space ν) (key : String) (slot : Slot ν) :
    (s.drop key).isForgettable slot = s.isForgettable slot := by
  unfold isForgettable importance
  rw [clock_drop, config_drop]

theorem size_drop {s : Space ν} (hs : s.Distinct) {key : String} (h : s.contains key = true) :
    (s.drop key).size = s.size - 1 := by
  unfold size
  rw [slots_drop]
  exact Table.size_erase hs.slots h

/-- The check that comes with a removal passes, and one atom after the other goes until the target is
reached. -/
theorem shrink_eq (target : Nat) {keys : List String} (hkeys : keys.Nodup) {s : Space ν}
    (hs : s.Distinct)
    (hall : ∀ key ∈ keys, ∃ slot, s.slots.get? key = some slot ∧ s.isForgettable slot = true) :
    shrink target keys s =
      (min keys.length (s.size - target), (keys.take (s.size - target)).foldl drop s) := by
  induction keys generalizing s with
  | nil => simp [shrink]
  | cons key keys ih =>
    obtain ⟨hnew, hkeys⟩ := List.nodup_cons.1 hkeys
    unfold shrink
    by_cases hsmall : s.size ≤ target
    · rw [if_pos hsmall, Nat.sub_eq_zero_of_le hsmall]
      simp
    · obtain ⟨slot, hslot, hforgettable⟩ := hall key List.mem_cons_self
      have hdropped : s.forgetAt key = (true, s.drop key) := by
        unfold forgetAt
        rw [hslot]
        exact if_pos hforgettable
      have hsize : (s.drop key).size = s.size - 1 := by
        apply size_drop hs
        rw [contains, Table.contains, hslot]
        rfl
      have hrest : ∀ other ∈ keys, ∃ slot, (s.drop key).slots.get? other = some slot ∧
          (s.drop key).isForgettable slot = true := by
        intro other hother
        obtain ⟨slot, hslot, hforgettable⟩ := hall other (List.mem_cons_of_mem _ hother)
        refine ⟨slot, ?_, (isForgettable_drop ..).trans hforgettable⟩
        rw [slots_drop, Table.get?_erase, if_neg, hslot]
        rintro rfl
        exact hnew hother
      rw [if_neg hsmall, hdropped]
      simp only
      rw [ih hkeys (hs.drop key) hrest, hsize]
      obtain ⟨n, hn⟩ : ∃ n, s.size - target = n + 1 := ⟨s.size - target - 1, by omega⟩
      rw [show s.size - 1 - target = n by omega, hn, List.take_succ_cons, List.foldl_cons,
        List.length_cons, Bool.toNat_true, Nat.add_comm 1, Nat.add_min_add_right]

theorem foldl_drop (keys : List String) (s : Space ν) :
    (keys.foldl drop s).slots.entries = s.slots.entries.filter (fun e => e.1 ∉ keys) ∧
      (keys.foldl drop s).clock = s.clock ∧ (keys.foldl drop s).config = s.config := by
  induction keys generalizing s with
  | nil => simp
  | cons key keys ih =>
    obtain ⟨hslots, hclock, hconfig⟩ := ih (s.drop key)
    refine ⟨?_, hclock.trans (clock_drop ..), hconfig.trans (config_drop ..)⟩
    rw [List.foldl_cons, hslots, slots_drop, Table.erase, List.filter_filter]
    refine List.filter_congr fun e _ => ?_
    simp [not_or, Bool.and_comm, beq_eq_decide]

/-! ## Candidates -/

theorem keys_weighed (s : Space ν) :
    s.weighed.map Prod.fst = (s.slots.entries.filter fun e => s.Dispensable e.2).map Prod.fst := by
  simp [weighed]

theorem perm_forgettable (s : Space ν) : s.fade.forgettable.Perm (s.weighed.map Prod.fst) := by
  rw [forgettable_fade]
  exact (List.mergeSort_perm ..).map _

theorem nodup_forgettable {s : Space ν} (hs : s.Distinct) : s.fade.forgettable.Nodup := by
  rw [s.perm_forgettable.nodup_iff, keys_weighed]
  exact (List.filter_sublist.map Prod.fst).nodup hs.slots

theorem toFinset_forgettable (s : Space ν) : s.fade.forgettable.toFinset = s.endangered := by
  rw [List.toFinset_eq_of_perm _ _ s.perm_forgettable, keys_weighed]
  rfl

theorem length_forgettable {s : Space ν} (hs : s.Distinct) :
    s.fade.forgettable.length = s.endangered.card := by
  rw [← toFinset_forgettable, List.toFinset_card_of_nodup (nodup_forgettable hs)]

theorem isForgettable_of_mem {s : Space ν} (hs : s.Distinct) {key : String}
    (h : key ∈ s.fade.forgettable) :
    ∃ slot, s.fade.slots.get? key = some slot ∧ s.fade.isForgettable slot = true := by
  rw [s.perm_forgettable.mem_iff, keys_weighed] at h
  obtain ⟨⟨_, slot⟩, he, rfl⟩ := List.mem_map.1 h
  obtain ⟨hentry, hdispensable⟩ := List.mem_filter.1 he
  refine ⟨s.decayed slot, ?_, (isForgettable_fade s slot).trans hdispensable⟩
  rw [get?_fade, Table.get?_of_mem_entries hs.slots hentry]
  rfl

/-! ## The atoms that go -/

/-- The keys of the atoms that the next cycle forgets, in their order. -/
def leaving (s : Space ν) : List String :=
  s.fade.forgettable.take
    (if s.fade.isCrowded s.fade.forgettable.length then s.size - targetSize s.config else 0)

theorem forget_eq {s : Space ν} (hs : s.Distinct) : s.forget =
    ({ tick := s.clock + 1
       decayed := s.size
       candidates := s.endangered.card
       removed := s.leaving.length
       sizeBefore := s.size
       sizeAfter := (s.leaving.foldl drop s.fade).size
       triggered := s.fade.isCrowded s.endangered.card }, s.leaving.foldl drop s.fade) := by
  have hshrink := shrink_eq (targetSize s.config) (nodup_forgettable hs) hs.fade
    fun _ h => isForgettable_of_mem hs h
  unfold forget leaving
  simp only
  rw [← length_forgettable hs]
  by_cases h : s.fade.isCrowded s.fade.forgettable.length
  · rw [if_pos h, if_pos h, hshrink, size_fade, List.length_take, Nat.min_comm]
    rfl
  · rw [if_neg h, if_neg h]
    rfl

theorem mem_endangered_of_mem_leaving {s : Space ν} {key : String} (h : key ∈ s.leaving) :
    key ∈ s.endangered := by
  rw [← toFinset_forgettable, List.mem_toFinset]
  exact List.mem_of_mem_take h

theorem mem_keys_of_mem_endangered {s : Space ν} {key : String} (h : key ∈ s.endangered) :
    key ∈ s.slots.keys := by
  obtain ⟨e, he, rfl⟩ := List.mem_map.1 (List.mem_toFinset.1 h)
  exact List.mem_map_of_mem (List.mem_filter.1 he).1

theorem entries_leave (s : Space ν) : (s.leaving.foldl drop s.fade).slots.entries =
    (s.slots.entries.filter fun e => e.1 ∉ s.leaving).map fun e => (e.1, s.decayed e.2) := by
  rw [(foldl_drop _ _).1]
  exact List.filter_map

theorem keys_leave (s : Space ν) : (s.leaving.foldl drop s.fade).slots.keys =
    s.slots.keys.filter fun key => key ∉ s.leaving := by
  rw [Table.keys, entries_leave, List.map_map, Table.keys, List.filter_map]
  rfl

theorem forgotten_leave (s : Space ν) :
    s.forgotten (s.leaving.foldl drop s.fade) = s.leaving.toFinset := by
  ext key
  have hcontains : (s.leaving.foldl drop s.fade).contains key = true ↔
      key ∈ s.slots.keys ∧ key ∉ s.leaving := by
    rw [contains, ← Table.mem_keys_iff, keys_leave, List.mem_filter, decide_eq_true_iff]
  rw [forgotten, List.mem_toFinset, List.mem_toFinset, List.mem_filter, Bool.not_eq_true',
    ← Bool.not_eq_true, hcontains]
  constructor
  · rintro ⟨hkey, hgone⟩
    by_contra hstays
    exact hgone ⟨hkey, hstays⟩
  · intro h
    exact ⟨mem_keys_of_mem_endangered (mem_endangered_of_mem_leaving h), fun hstays => hstays.2 h⟩

theorem standing_of_mem_weighed {s : Space ν} (hs : s.Distinct) {key : String} {x : ν}
    (h : (key, x) ∈ s.weighed) {slot : Slot ν} (hslot : s.slots.get? key = some slot) :
    x = s.standing slot := by
  obtain ⟨⟨_, slot'⟩, he, heq⟩ := List.mem_map.1 h
  obtain ⟨rfl, rfl⟩ := Prod.mk.inj heq
  have hslot' := Table.get?_of_mem_entries hs.slots (List.mem_filter.1 he).1
  rw [hslot] at hslot'
  cases hslot'
  rfl

/-- What leaves ranks at most as high as a candidate that stays. -/
theorem rankLE_of_leaving [Ranked ν] {s : Space ν} (hs : s.Distinct) {key other : String}
    (hleaves : key ∈ s.leaving) (hother : other ∈ s.endangered) (hstays : other ∉ s.leaving)
    {slot slot' : Slot ν} (hslot : s.slots.get? key = some slot)
    (hslot' : s.slots.get? other = some slot') :
    Scalar.rankLE (s.standing slot) (s.standing slot') = true := by
  rw [← toFinset_forgettable, List.mem_toFinset, forgettable_fade] at hother
  obtain ⟨n, hn⟩ : ∃ n, s.leaving = s.fade.forgettable.take n := ⟨_, rfl⟩
  rw [hn, forgettable_fade, ← List.map_take] at hleaves hstays
  have hsorted := @List.pairwise_mergeSort (String × ν) (fun x y => Scalar.rankLE x.2 y.2)
    (fun x y z => Ranked.trans x.2 y.2 z.2) (fun x y => Ranked.total x.2 y.2) s.weighed
  have hmem {e : String × ν} : e ∈ s.weighed.mergeSort (fun x y => Scalar.rankLE x.2 y.2) ↔ e ∈ s.weighed :=
    (List.mergeSort_perm ..).mem_iff
  generalize s.weighed.mergeSort (fun x y => Scalar.rankLE x.2 y.2) = sorted at *
  obtain ⟨⟨first, x⟩, hx, rfl⟩ := List.mem_map.1 hleaves
  obtain ⟨⟨second, y⟩, hy, rfl⟩ := List.mem_map.1 hother
  have hdrop : (second, y) ∈ sorted.drop n := by
    rw [← List.take_append_drop n sorted, List.mem_append] at hy
    exact hy.resolve_left fun h => hstays (List.mem_map_of_mem h)
  rw [← List.take_append_drop n sorted, List.pairwise_append] at hsorted
  have hle := hsorted.2.2 _ hx _ hdrop
  rwa [standing_of_mem_weighed hs (hmem.1 (List.mem_of_mem_take hx)) hslot,
    standing_of_mem_weighed hs (hmem.1 (List.mem_of_mem_drop hdrop)) hslot'] at hle

/-- A maintenance cycle does what its report says. -/
theorem forget_cycle [Ranked ν] {s : Space ν} (h : s.Reachable) : Cycle s s.forget.1 s.forget.2 := by
  have hs := h.distinct
  have hnodup : s.leaving.Nodup := (List.take_sublist _ _).nodup (nodup_forgettable hs)
  have hcard : (s.forgotten (s.leaving.foldl drop s.fade)).card = s.leaving.length := by
    rw [forgotten_leave, List.toFinset_card_of_nodup hnodup]
  have hlength : s.leaving.length = min (if s.fade.isCrowded s.endangered.card then
      s.size - targetSize s.config else 0) s.endangered.card := by
    rw [leaving, List.length_take, length_forgettable hs]
  obtain ⟨-, hclock, hconfig⟩ := foldl_drop s.leaving s.fade
  rw [forget_eq hs]
  constructor
  case tick | decayed | candidates | sizeBefore | sizeAfter => rfl
  case removed => exact hcard.symm
  case triggered =>
    show s.fade.isCrowded s.endangered.card = true ↔ _
    unfold isCrowded
    rw [Bool.or_eq_true, decide_eq_true_iff, size_fade]
    rfl
  case idle =>
    intro hidle
    rw [← Finset.card_eq_zero, hcard, hlength, if_neg (ne_true_of_eq_false hidle), Nat.zero_min]
  case active =>
    intro hactive
    rw [hcard, hlength, if_pos hactive, Nat.min_comm]
  case forgotten_subset =>
    intro key hkey
    rw [forgotten_leave, List.mem_toFinset] at hkey
    exact mem_endangered_of_mem_leaving hkey
  case lowest =>
    intro key hkey other hother slot slot' hslot hslot'
    rw [forgotten_leave] at hkey hother
    rw [Finset.mem_sdiff, List.mem_toFinset] at hother
    exact Ranked.not_lt _ _
      (rankLE_of_leaving hs (List.mem_toFinset.1 hkey) hother.1 hother.2 hslot hslot')
  case slots =>
    rw [entries_leave, forgotten_leave]
    simp only [List.mem_toFinset]
  case clock => exact hclock
  case config => exact hconfig

/-- A space that exceeds its trigger size by two. Besides the protected symbols it holds a variable and
three symbols. -/
def crowded : Space (Exact fun _ => 1) :=
  let limits : SpaceConfig (Exact fun _ => 1) :=
    { (default : SpaceConfig (Exact fun _ => 1)) with minPriority := 1, triggerSize := 20, targetRatio := 1 }
  let s : Space (Exact fun _ => 1) := ((empty limits).add (.var "x")).2
  let s := (s.add (.symbol "a")).2
  let s := (s.add (.symbol "b")).2
  (s.add (.symbol "c")).2

/-- Two of the three symbols go, though the variable and the protected symbols are no more important. -/
theorem forget_cycle_crowded : Cycle crowded crowded.forget.1 crowded.forget.2 ∧
    crowded.endangered = {"a", "b", "c"} ∧ crowded.forget.1.removed = 2 := by
  have hreach : crowded.Reachable :=
    ⟨_, .tail (.tail (.tail (.single (.add _ (.var "x"))) (.add _ (.symbol "a"))) (.add _ (.symbol "b")))
      (.add _ (.symbol "c"))⟩
  have hcycle := forget_cycle hreach
  have hcandidates : crowded.endangered = {"a", "b", "c"} := by decide +kernel
  have hsize : crowded.size = 22 ∧ targetSize crowded.config = 20 := by decide +kernel
  refine ⟨hcycle, hcandidates, ?_⟩
  rw [hcycle.removed, hcycle.active (hcycle.triggered.2 (.inl (by decide +kernel))), hcandidates,
    hsize.1, hsize.2]
  rfl

end Space

end Atomspace
