import Atomspace.Proofs.Ranges
/-!
# Boosts add up

Both levels of a priority stop at one, and the long-term level gains by what the short-term level really
gained. Still the order of boosts does not matter, and none is lost: two boosts are one boost by the sum
(`Priority.raised_raised`), so a list of them is one boost by its total (`Priority.InRange.boostAll`). In a
space the boosts of an atom add up whatever other atoms are boosted in between
(`Space.get?_boostEach`, `Space.boostEach_eq_raised`).
-/

namespace Atomspace

/-! ## Boosts of a priority -/

namespace Priority

/-- Boosts by one amount after the other. -/
def boostAll {ν : Type} [Scalar ν] (p : Priority ν) (rate : ν) (amounts : List ν) : Priority ν :=
  amounts.foldl (fun p amount => p.boost amount rate) p

variable {exp : Rat → Rat}

/-- The priority raised by a total at once: the short-term level by the total up to one, the long-term level
by the rate times that gain, up to one. -/
def raised (p : Priority (Exact exp)) (rate : Exact exp) (total : Rat) : Priority (Exact exp) :=
  let shortTerm := min 1 (p.shortTerm.value + total)
  { shortTerm := ⟨shortTerm⟩
    longTerm := ⟨min 1 (p.longTerm.value + rate.value * (shortTerm - p.shortTerm.value))⟩ }

/-- The sum of some amounts. -/
def total (amounts : List (Exact exp)) : Rat :=
  (amounts.map Exact.value).sum

theorem eq_of_levels {p q : Priority (Exact exp)} (hshort : p.shortTerm.value = q.shortTerm.value)
    (hlong : p.longTerm.value = q.longTerm.value) : p = q := by
  obtain ⟨⟨_⟩, ⟨_⟩⟩ := p
  obtain ⟨⟨_⟩, ⟨_⟩⟩ := q
  cases hshort
  cases hlong
  rfl

theorem total_of_perm {l m : List (Exact exp)} (h : l.Perm m) : total l = total m :=
  (h.map _).sum_eq

variable {p : Priority (Exact exp)} {rate amount : Exact exp} {x y : Rat}

/-- The short-term level does not fall when a total that is not negative raises it. -/
theorem InRange.le_raised (hp : p.InRange) (hx : 0 ≤ x) :
    p.shortTerm.value ≤ min 1 (p.shortTerm.value + x) :=
  le_min (Exact.inUnit_iff.1 hp.shortTerm).2 (le_add_of_nonneg_right hx)

theorem InRange.raised_zero (hp : p.InRange) : p.raised rate 0 = p := by
  have hshort : min 1 (p.shortTerm.value + 0) = p.shortTerm.value := by
    rw [add_zero, min_eq_right (Exact.inUnit_iff.1 hp.shortTerm).2]
  refine eq_of_levels hshort ?_
  show min 1 (p.longTerm.value + rate.value * (min 1 (p.shortTerm.value + 0) - p.shortTerm.value)) = _
  rw [hshort, sub_self, mul_zero, add_zero, min_eq_right (Exact.inUnit_iff.1 hp.longTerm).2]

/-- One boost is clamped from above only. -/
theorem InRange.boost_eq_raised (hp : p.InRange) (hrate : 0 ≤ rate.value) (hamount : 0 ≤ amount.value) :
    p.boost amount rate = p.raised rate amount.value := by
  obtain ⟨hshort0, -⟩ := Exact.inUnit_iff.1 hp.shortTerm
  obtain ⟨hlong0, hlong1⟩ := Exact.inUnit_iff.1 hp.longTerm
  have hshort : (Scalar.clampUnit (p.shortTerm + amount)).value =
      min 1 (p.shortTerm.value + amount.value) := by
    rw [Exact.value_clampUnit]
    exact max_eq_right (le_min zero_le_one (add_nonneg hshort0 hamount))
  have hgain := sub_nonneg.2 (hp.le_raised hamount)
  have hlt : Scalar.lt 0.0 (Scalar.clampUnit (p.shortTerm + amount) - p.shortTerm) =
      decide (0 < min 1 (p.shortTerm.value + amount.value) - p.shortTerm.value) := by
    show decide ((0.0 : Exact exp).value < (Scalar.clampUnit (p.shortTerm + amount)).value - _) = _
    rw [hshort, Exact.value_zero]
  refine eq_of_levels hshort ?_
  unfold Priority.boost Priority.raised
  simp only [hlt, decide_eq_true_eq]
  split
  · have hnonneg := add_nonneg hlong0 (mul_nonneg hgain hrate)
    rw [Exact.value_clampUnit, mul_comm rate.value]
    show max 0 (min 1 (p.longTerm.value +
      ((Scalar.clampUnit (p.shortTerm + amount)).value - p.shortTerm.value) * rate.value)) = _
    rw [hshort]
    exact max_eq_right (le_min zero_le_one hnonneg)
  · rename_i hnone
    rw [(not_lt.1 hnone).antisymm hgain, mul_zero, add_zero, min_eq_right hlong1]

theorem InRange.raised (hp : p.InRange) (hrate : 0 ≤ rate.value) (hx : 0 ≤ x) : (p.raised rate x).InRange := by
  obtain ⟨hshort0, -⟩ := Exact.inUnit_iff.1 hp.shortTerm
  obtain ⟨hlong0, -⟩ := Exact.inUnit_iff.1 hp.longTerm
  refine ⟨Exact.inUnit_iff.2 ⟨?_, min_le_left _ _⟩, Exact.inUnit_iff.2 ⟨?_, min_le_left _ _⟩⟩
  · exact le_min zero_le_one (add_nonneg hshort0 hx)
  · exact le_min zero_le_one (add_nonneg hlong0 (mul_nonneg hrate (sub_nonneg.2 (hp.le_raised hx))))

/-- What is cut off at one and then raised is cut off at one in the end. -/
theorem min_one_add {a b : Rat} (hb : 0 ≤ b) : min 1 (min 1 a + b) = min 1 (a + b) := by
  rcases le_total a 1 with ha | ha
  · rw [min_eq_right ha]
  · rw [min_eq_left ha, min_eq_left (le_add_of_nonneg_right hb), min_eq_left (ha.trans (le_add_of_nonneg_right hb))]

/-- To raise twice is to raise by the sum. The gains of the short-term level add up, clamped or not, and so
do those that the long-term level makes of them. -/
theorem raised_raised (hrate : 0 ≤ rate.value) (hy : 0 ≤ y) :
    (p.raised rate x).raised rate y = p.raised rate (x + y) := by
  have hshort : min 1 (min 1 (p.shortTerm.value + x) + y) = min 1 (p.shortTerm.value + (x + y)) := by
    rw [min_one_add hy, add_assoc]
  refine eq_of_levels hshort ?_
  have hgain : min 1 (p.shortTerm.value + x) ≤ min 1 (p.shortTerm.value + (x + y)) :=
    min_le_min_left _ (add_le_add_right (le_add_of_nonneg_right hy) _)
  unfold Priority.raised
  simp only
  rw [hshort, min_one_add (mul_nonneg hrate (sub_nonneg.2 hgain)), add_assoc, ← mul_add]
  congr 3
  ring

/-- The invariant of boosting: what was boosted so far is one boost by the sum of the amounts. -/
theorem InRange.boostAll (hp : p.InRange) (hrate : 0 ≤ rate.value) {amounts : List (Exact exp)}
    (hamounts : ∀ amount ∈ amounts, 0 ≤ amount.value) :
    p.boostAll rate amounts = p.raised rate (total amounts) := by
  induction amounts generalizing p with
  | nil => exact hp.raised_zero.symm
  | cons amount amounts ih =>
    obtain ⟨hamount, hamounts⟩ := List.forall_mem_cons.1 hamounts
    have htotal : 0 ≤ total amounts := List.sum_nonneg fun x hx => by
      obtain ⟨amount, hmem, rfl⟩ := List.mem_map.1 hx
      exact hamounts amount hmem
    calc p.boostAll rate (amount :: amounts)
      _ = (p.boost amount rate).boostAll rate amounts := rfl
      _ = (p.raised rate amount.value).boostAll rate amounts := by rw [hp.boost_eq_raised hrate hamount]
      _ = (p.raised rate amount.value).raised rate (total amounts) := ih (hp.raised hrate hamount) hamounts
      _ = p.raised rate (amount.value + total amounts) := raised_raised hrate htotal

end Priority

/-! ## Boosts in a space -/

namespace Space

section
variable {ν : Type} [Scalar ν]

/-- Boosts of any atoms, one after the other. -/
def boostEach (s : Space ν) (boosts : List (Atom ν × ν)) : Space ν :=
  boosts.foldl (fun s b => (s.boost b.1 b.2).2) s

/-- The amounts that the atom under a key is boosted by, in their order. -/
def amountsFor (key : String) (boosts : List (Atom ν × ν)) : List ν :=
  (boosts.filter fun b => b.1.key == key).map Prod.snd

/-- The slot after boosts by some amounts. -/
def boostedBy (s : Space ν) (amounts : List ν) (slot : Slot ν) : Slot ν :=
  { slot with
    value := { slot.value with
      priority := slot.value.priority.boostAll s.config.longTermRate amounts
      lastAccess := if amounts.isEmpty then slot.value.lastAccess else s.clock } }

/-- A slot takes the boosts of its own atom, in their order, and no others. -/
theorem get?_boostEach (s : Space ν) (boosts : List (Atom ν × ν)) (key : String) :
    (s.boostEach boosts).slots.get? key = (s.slots.get? key).map (s.boostedBy (amountsFor key boosts)) := by
  induction boosts generalizing s with
  | nil =>
    show s.slots.get? key = _
    cases s.slots.get? key <;> rfl
  | cons b boosts ih =>
    have hfirst : (s.boostEach (b :: boosts)) = (s.boost b.1 b.2).2.boostEach boosts := rfl
    rw [hfirst, ih]
    unfold boost amountsFor
    simp only [touch]
    rw [Table.get?_modify]
    by_cases hkey : key = b.1.key
    · rw [if_pos hkey, ← hkey, Option.map_map, List.filter_cons_of_pos (by simp [hkey])]
      refine Option.map_congr fun slot _ => ?_
      simp [boostedBy, Priority.boostAll]
    · rw [if_neg hkey, List.filter_cons_of_neg (by simpa using Ne.symm hkey)]
      rfl

end

variable {exp : Rat → Rat}

/-- Boosts by amounts that are not negative, at a rate that is not negative, leave a priority in range raised
by the sum of the amounts, in whatever order they come. So they do in a space, among boosts of other atoms in
any order: every stored atom is raised by the sum of its own. -/
theorem boostEach_eq_raised {p : Priority (Exact exp)} (hp : p.InRange) {rate : Exact exp}
    (hrate : 0 ≤ rate.value) {amounts : List (Exact exp)} (hamounts : ∀ amount ∈ amounts, 0 ≤ amount.value) :
    (∀ order : List (Exact exp), order.Perm amounts →
      p.boostAll rate order = p.raised rate (Priority.total amounts)) ∧
    ∀ (s : Space (Exact exp)) (key : String) (slot : Slot (Exact exp)) (boosts : List (Atom (Exact exp) × Exact exp)),
      s.config.longTermRate = rate → s.slots.get? key = some slot → slot.value.priority = p →
      (amountsFor key boosts).Perm amounts → ∃ slot', (s.boostEach boosts).slots.get? key = some slot' ∧
        slot'.value.priority = p.raised rate (Priority.total amounts) := by
  have horder (order : List (Exact exp)) (h : order.Perm amounts) :
      p.boostAll rate order = p.raised rate (Priority.total amounts) := by
    rw [hp.boostAll hrate fun amount hmem => hamounts amount (h.mem_iff.1 hmem), Priority.total_of_perm h]
  refine ⟨horder, ?_⟩
  rintro s key slot boosts rfl hslot rfl hperm
  refine ⟨s.boostedBy (amountsFor key boosts) slot, ?_, horder _ hperm⟩
  rw [get?_boostEach, hslot]
  rfl

/-- A space that holds a symbol, accessed once. -/
def rainy : Space (Exact fun _ => 1) :=
  ((empty default).add (.symbol "rain")).2

/-- Two boosts of the symbol that reach beyond one are worth the same in both orders, also with a boost of
another symbol in between. -/
theorem boostEach_eq_raised_rainy :
    let p : Priority (Exact fun _ => 1) := ⟨⟨3 / 20⟩, ⟨1 / 200⟩⟩
    let boosts : List (Atom (Exact fun _ => 1) × Exact fun _ => 1) :=
      [(.symbol "rain", ⟨1 / 2⟩), (.symbol "True", ⟨1⟩), (.symbol "rain", ⟨3 / 5⟩)]
    let amounts : List (Exact fun _ => 1) := [⟨3 / 5⟩, ⟨1 / 2⟩]
    p.boostAll ⟨1 / 10⟩ amounts = ⟨⟨1⟩, ⟨9 / 100⟩⟩ ∧
      ∃ slot, (rainy.boostEach boosts).slots.get? "rain" = some slot ∧
        slot.value.priority = ⟨⟨1⟩, ⟨9 / 100⟩⟩ := by
  intro p boosts amounts
  have hp : p.InRange := ⟨by decide +kernel, by decide +kernel⟩
  have hamounts : ∀ amount ∈ amounts, 0 ≤ amount.value := by decide +kernel
  have hrate : (0 : Rat) ≤ (⟨1 / 10⟩ : Exact fun _ => 1).value := by decide +kernel
  have hraised : p.raised ⟨1 / 10⟩ (Priority.total amounts) = ⟨⟨1⟩, ⟨9 / 100⟩⟩ :=
    Priority.eq_of_levels (by decide +kernel) (by decide +kernel)
  obtain ⟨horder, hspace⟩ := boostEach_eq_raised hp hrate hamounts
  have hsome : (rainy.slots.get? "rain").any fun slot =>
      decide (slot.value.priority.shortTerm.value = 3 / 20 ∧ slot.value.priority.longTerm.value = 1 / 200) := by
    decide +kernel
  obtain ⟨hstored, hlevels⟩ := (Option.any_eq_true_iff_get _ _).1 hsome
  obtain ⟨hshort, hlong⟩ := of_decide_eq_true hlevels
  have hconfig : rainy.config.longTermRate = ⟨1 / 10⟩ := by decide +kernel
  have hmine : (amountsFor "rain" boosts).Perm amounts := List.Perm.swap _ _ _
  refine ⟨(horder _ (.refl _)).trans hraised, ?_⟩
  rw [← hraised]
  exact hspace rainy "rain" _ boosts hconfig (Option.some_get hstored).symm (Priority.eq_of_levels hshort hlong) hmine

end Space

end Atomspace
