import Atomspace.Proofs.Ranges
import Atomspace.Proofs.Reachable
/-!
# Evidence adds up

Merging truths adds their counts and averages their strengths by count, as long as there is any
evidence. Where there is none, `Truth.merge` takes the mean of the strengths, which depends on the
grouping; but such a mean has no weight in a later merge. So a partial result may have any strength
while its count is zero, and `Truth.Sums` only says what its evidence adds up to. That is kept by
every merge (`Truth.Sums.merge`), hence by every bracketing and by repeated assertion
(`Truth.merged_eq_pooled`).
-/

namespace Atomspace

/-! ## Bracketings -/

/-- Elements in some order, bracketed in pairs. -/
inductive Bracketing (α : Type)
  | single (a : α)
  | pair (left right : Bracketing α)

namespace Bracketing

/-- The elements from left to right. -/
def elements {α : Type} : Bracketing α → List α
  | single a => [a]
  | pair left right => left.elements ++ right.elements

/-- The truths merged as the brackets say. -/
def merged {ν : Type} [Scalar ν] : Bracketing (Truth ν) → Truth ν
  | single t => t
  | pair left right => left.merged.merge right.merged

end Bracketing

namespace Truth

variable {exp : Rat → Rat}

theorem eq_of_values {t u : Truth (Exact exp)} (hstrength : t.strength.value = u.strength.value)
    (hcount : t.count.value = u.count.value) : t = u := by
  obtain ⟨⟨_⟩, ⟨_⟩⟩ := t
  obtain ⟨⟨_⟩, ⟨_⟩⟩ := u
  cases hstrength
  cases hcount
  rfl

/-! ## Made truths -/

/-- The truth comes from a strength and a count, whatever they are. -/
def Made {ν : Type} [Scalar ν] (t : Truth ν) : Prop :=
  ∃ strength count, t = ofEvidence strength count

theorem value_strength_ofEvidence (strength count : Exact exp) :
    (ofEvidence strength count).strength.value = max 0 (min 1 strength.value) := by
  unfold ofEvidence
  simp only
  rw [Exact.isNaN_eq_false strength, if_neg Bool.false_ne_true, Exact.value_clampUnit]

variable {t u : Truth (Exact exp)}

theorem InRange.count_nonneg (h : t.InRange) : 0 ≤ t.count.value :=
  Exact.le_iff.1 h.count

/-- What is in range is left as it is, so the made truths are those in range. -/
theorem made_iff_inRange : t.Made ↔ t.InRange := by
  constructor
  · rintro ⟨strength, count, rfl⟩
    exact inRange_ofEvidence strength count
  · intro h
    obtain ⟨h0, h1⟩ := Exact.inUnit_iff.1 h.strength
    refine ⟨t.strength, t.count, eq_of_values ?_ ?_⟩
    · rw [value_strength_ofEvidence, min_eq_right h1, max_eq_right h0]
    · rw [value_count_ofEvidence, max_eq_left h.count_nonneg]

theorem made_unknown : (unknown : Truth (Exact exp)).Made :=
  made_iff_inRange.2 inRange_unknown

/-! ## One merge -/

theorem value_count_merge (ht : t.InRange) (hu : u.InRange) :
    (t.merge u).count.value = t.count.value + u.count.value := by
  have hvalue : (t.count + u.count).value = t.count.value + u.count.value := rfl
  have hnonneg := add_nonneg ht.count_nonneg hu.count_nonneg
  unfold merge
  simp only
  split
  · rename_i hle
    rw [Exact.le_iff, Exact.value_zero, hvalue] at hle
    rw [value_count_ofEvidence, Exact.value_zero, max_self]
    exact hnonneg.antisymm hle
  · rw [value_count_ofEvidence, hvalue, max_eq_left hnonneg]

/-- The mean of strengths weighed by their counts is in range, so that nothing is clamped. -/
theorem value_strength_merge (ht : t.InRange) (hu : u.InRange) (hpos : 0 < t.count.value + u.count.value) :
    (t.merge u).strength.value =
      (t.strength.value * t.count.value + u.strength.value * u.count.value) /
        (t.count.value + u.count.value) := by
  obtain ⟨ht0, ht1⟩ := Exact.inUnit_iff.1 ht.strength
  obtain ⟨hu0, hu1⟩ := Exact.inUnit_iff.1 hu.strength
  have hmean0 : 0 ≤ t.strength.value * t.count.value + u.strength.value * u.count.value :=
    add_nonneg (mul_nonneg ht0 ht.count_nonneg) (mul_nonneg hu0 hu.count_nonneg)
  have hmean1 : t.strength.value * t.count.value + u.strength.value * u.count.value ≤
      t.count.value + u.count.value :=
    add_le_add (mul_le_of_le_one_left ht.count_nonneg ht1) (mul_le_of_le_one_left hu.count_nonneg hu1)
  unfold merge
  simp only
  split
  · rename_i hle
    rw [Exact.le_iff, Exact.value_zero] at hle
    exact absurd hle (not_le.2 hpos)
  · rw [value_strength_ofEvidence]
    have hmin := min_eq_right (div_le_one_of_le₀ hmean1 hpos.le)
    exact (congrArg (max 0) hmin).trans (max_eq_right (div_nonneg hmean0 hpos.le))

/-! ## Sums of evidence -/

/-- The counts together. -/
def total (l : List (Truth (Exact exp))) : Rat :=
  (l.map fun t => t.count.value).sum

/-- The strengths together, each as often as it was counted. -/
def weight (l : List (Truth (Exact exp))) : Rat :=
  (l.map fun t => t.strength.value * t.count.value).sum

/-- All the evidence of a list at once. -/
def pooled (l : List (Truth (Exact exp))) : Truth (Exact exp) :=
  ⟨⟨weight l / total l⟩, ⟨total l⟩⟩

theorem total_append (l m : List (Truth (Exact exp))) : total (l ++ m) = total l + total m := by
  simp [total]

theorem weight_append (l m : List (Truth (Exact exp))) : weight (l ++ m) = weight l + weight m := by
  simp [weight]

theorem total_of_perm {l m : List (Truth (Exact exp))} (h : l.Perm m) : total l = total m :=
  (h.map _).sum_eq

theorem weight_of_perm {l m : List (Truth (Exact exp))} (h : l.Perm m) : weight l = weight m :=
  (h.map _).sum_eq

/-- The truth has the evidence of the list; its strength matters as far as there is any. -/
structure Sums (t : Truth (Exact exp)) (l : List (Truth (Exact exp))) : Prop where
  inRange : t.InRange
  count : t.count.value = total l
  weight : t.strength.value * t.count.value = weight l

namespace Sums

variable {l m : List (Truth (Exact exp))}

theorem single (h : t.InRange) : Sums t [t] :=
  ⟨h, by simp [total], by simp [Truth.weight]⟩

theorem of_perm (h : Sums t l) (hperm : l.Perm m) : Sums t m :=
  ⟨h.inRange, h.count.trans (total_of_perm hperm), h.weight.trans (weight_of_perm hperm)⟩

/-- Truths without evidence add nothing. -/
theorem of_append (h : Sums t (l ++ m)) (hm : ∀ u ∈ m, u.count.value = 0) : Sums t l := by
  have htotal : total m = 0 := List.sum_eq_zero (by simpa using hm)
  have hweight : Truth.weight m = 0 := by
    refine List.sum_eq_zero fun x hx => ?_
    obtain ⟨u, hu, rfl⟩ := List.mem_map.1 hx
    rw [hm u hu, mul_zero]
  refine ⟨h.inRange, ?_, ?_⟩
  · rw [h.count, total_append, htotal, add_zero]
  · rw [h.weight, weight_append, hweight, add_zero]

theorem eq_pooled (h : Sums t l) (hpos : 0 < total l) : t = pooled l := by
  refine eq_of_values ?_ h.count
  show t.strength.value = Truth.weight l / total l
  rw [eq_div_iff hpos.ne', ← h.weight, h.count]

/-- Where there is no evidence at all, the strength of the merger has no weight. -/
theorem merge (ht : Sums t l) (hu : Sums u m) : Sums (t.merge u) (l ++ m) := by
  have hcount := value_count_merge ht.inRange hu.inRange
  refine ⟨inRange_merge t u, ?_, ?_⟩
  · rw [hcount, total_append, ht.count, hu.count]
  · rw [weight_append, ← ht.weight, ← hu.weight, hcount]
    have ht0 := ht.inRange.count_nonneg
    have hu0 := hu.inRange.count_nonneg
    rcases (add_nonneg ht0 hu0).eq_or_lt with hzero | hpos
    · obtain ⟨htzero, huzero⟩ := (add_eq_zero_iff_of_nonneg ht0 hu0).1 hzero.symm
      simp [htzero, huzero]
    · rw [value_strength_merge ht.inRange hu.inRange hpos, div_mul_cancel₀ _ hpos.ne']

theorem bracketing {b : Bracketing (Truth (Exact exp))} (h : ∀ t ∈ b.elements, t.InRange) :
    Sums b.merged b.elements := by
  induction b with
  | single t => exact single (h t (List.mem_singleton_self t))
  | pair left right ihl ihr =>
    exact (ihl fun t ht => h t (List.mem_append_left _ ht)).merge
      (ihr fun t ht => h t (List.mem_append_right _ ht))

theorem foldl (ht : Sums t l) (hm : ∀ u ∈ m, u.InRange) : Sums (m.foldl Truth.merge t) (l ++ m) := by
  induction m generalizing t l with
  | nil => rwa [List.append_nil]
  | cons u m ih =>
    rw [← List.singleton_append, ← List.append_assoc]
    exact ih (ht.merge (single (hm u List.mem_cons_self))) fun v hv => hm v (List.mem_cons_of_mem _ hv)

end Sums

end Truth

/-! ## Repeated assertion -/

namespace Space

variable {ν : Type} [Scalar ν]

/-- Asserts one atom again and again. -/
def assertAll (s : Space ν) (a : Atom ν) (l : List (Truth ν)) : Space ν :=
  l.foldl (fun s t => (s.assert a t).2) s

/-- What is known of the atom of the same key. -/
def truth? (s : Space ν) (a : Atom ν) : Option (Truth ν) :=
  (s.fact? a.key).map Prod.snd

theorem truth?_assert {s : Space ν} (hs : s.Filed) (a : Atom ν) (t : Truth ν) :
    (s.assert a t).2.truth? a = some (((s.truth? a).getD .unknown).merge t) := by
  rw [truth?, fact?_assert hs, if_pos rfl, truth?]
  cases s.fact? a.key <;> rfl

theorem truth?_assertAll {s : Space ν} (hs : s.Filed) (a : Atom ν) {l : List (Truth ν)} (hl : l ≠ []) :
    (s.assertAll a l).truth? a = some (l.foldl Truth.merge ((s.truth? a).getD .unknown)) := by
  induction l generalizing s with
  | nil => exact absurd rfl hl
  | cons t l ih =>
    have hassert := truth?_assert hs a t
    by_cases hrest : l = []
    · rw [hrest]
      exact hassert
    · have h := ih (hs.changes (s.changes_assert a t)) hrest
      rw [hassert] at h
      exact h

end Space

/-! ## Any order and any grouping -/

section
variable {exp : Rat → Rat}

/-- If there is evidence in a list of truths, merging them with truths that have none, in any order and
with any brackets, gives the sum of the counts and the mean of the strengths weighed by them. Asserting
an atom with each of them, in any order, leaves the same truth, together with what was known before. -/
theorem Truth.merged_eq_pooled {l zeros : List (Truth (Exact exp))} (hl : ∀ t ∈ l, t.Made)
    (hpos : 0 < total l) (hzeros : ∀ t ∈ zeros, t.Made ∧ t.count.value = 0) :
    (∀ b : Bracketing (Truth (Exact exp)), b.elements.Perm (l ++ zeros) → b.merged = pooled l) ∧
    ∀ (s : Space (Exact exp)) (a : Atom (Exact exp)) (order : List (Truth (Exact exp))), s.Reachable →
      (∀ t, s.truth? a = some t → t.Made) → order.Perm (l ++ zeros) →
      (s.assertAll a order).truth? a = some (pooled ((s.truth? a).toList ++ l)) := by
  have hmade : ∀ t ∈ l ++ zeros, t.InRange := by
    intro t ht
    rcases List.mem_append.1 ht with ht | ht
    · exact made_iff_inRange.1 (hl t ht)
    · exact made_iff_inRange.1 (hzeros t ht).1
  have hnone : ∀ t ∈ zeros, t.count.value = 0 := fun t ht => (hzeros t ht).2
  constructor
  · intro b hb
    have hsums := Sums.bracketing fun t ht => hmade t (hb.mem_iff.1 ht)
    exact ((hsums.of_perm hb).of_append hnone).eq_pooled hpos
  · intro s a order hs hprior horder
    have hne : order ≠ [] := by
      rintro rfl
      have hnil := List.append_eq_nil_iff.1 (List.nil_perm.1 horder)
      rw [hnil.1] at hpos
      exact lt_irrefl _ hpos
    have hmem : ∀ t ∈ order, t.InRange := fun t ht => hmade t (horder.mem_iff.1 ht)
    -- what was known before counts like one more truth, and not at all where nothing was
    have hsums : ∀ t : Truth (Exact exp), t.InRange → Sums (order.foldl merge t) (t :: l) :=
      fun t ht => (((Sums.single ht).foldl hmem).of_perm (horder.cons t)).of_append hnone
    rw [Space.truth?_assertAll hs.filed a hne]
    cases hknown : s.truth? a with
    | none =>
      have hunknown := (hsums unknown inRange_unknown).of_perm (List.perm_append_singleton unknown l).symm
      have hempty : ∀ t ∈ [(unknown : Truth (Exact exp))], t.count.value = 0 :=
        List.forall_mem_singleton.2 Exact.value_zero
      exact congrArg some ((hunknown.of_append hempty).eq_pooled hpos)
    | some t =>
      have ht := made_iff_inRange.1 (hprior t hknown)
      have htotal : total (t :: l) = t.count.value + total l := List.sum_cons
      exact congrArg some ((hsums t ht).eq_pooled (htotal ▸ add_pos_of_nonneg_of_pos ht.count_nonneg hpos))

/-- Three observations for and one against, with nothing known before, leave three quarters of four. -/
theorem Truth.merged_eq_pooled_quarters :
    let l : List (Truth (Exact fun _ => 1)) := [observed 3, ofEvidence 0 1]
    let s : Space (Exact fun _ => 1) := Space.empty default
    (Bracketing.pair (.single unknown) (.pair (.single (ofEvidence 0 1)) (.single (observed 3)))).merged =
        pooled l ∧
      (s.assertAll (.symbol "rain") [unknown, ofEvidence 0 1, observed 3]).truth? (.symbol "rain") =
        some (pooled l) ∧
      pooled l = ⟨⟨3 / 4⟩, ⟨4⟩⟩ := by
  intro l s
  have hl : ∀ t ∈ l, t.Made := by
    simp only [l, List.forall_mem_cons, List.not_mem_nil, false_implies, implies_true, and_true]
    exact ⟨⟨1.0, 3, rfl⟩, ⟨0, 1, rfl⟩⟩
  have hzeros : ∀ t ∈ [(unknown : Truth (Exact fun _ => 1))], t.Made ∧ t.count.value = 0 :=
    List.forall_mem_singleton.2 ⟨made_unknown, Exact.value_zero⟩
  have hpooled : pooled l = ⟨⟨3 / 4⟩, ⟨4⟩⟩ := eq_of_values (by decide +kernel) (by decide +kernel)
  have htotal : 0 < total l := by decide +kernel
  have hnew : s.truth? (.symbol "rain") = none := by rfl
  have h := merged_eq_pooled hl htotal hzeros
  have horder : [unknown, ofEvidence 0 1, observed 3].Perm (l ++ [unknown]) :=
    ((List.Perm.swap _ _ _).cons unknown).trans (List.perm_append_singleton unknown l).symm
  refine ⟨h.1 _ horder, ?_, hpooled⟩
  have hassert := h.2 s (.symbol "rain") _ ⟨default, .refl⟩ (fun t ht => nomatch hnew ▸ ht) horder
  rw [hassert, hnew]
  rfl

end

end Atomspace
