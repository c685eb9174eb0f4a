import Atomspace.Proofs.Evidence
import Atomspace.Proofs.Extended
/-!
# Confidence as a weight

Where a truth is made, what is undefined or out of range is replaced, but a count has no upper bound. So a
strength is always a number from zero to one, while an infinite count stays what it is: its confidence is the
quotient of two infinities, and so undefined. Merging adds counts, so one such count is enough to leave
nothing but that in a merger of any size (`Truth.merge_of_infinity`, `Bracketing.merged_spec`); without one,
confidence and score are numbers from zero to one as well (`Truth.InRange.weighs`).
-/

namespace Atomspace

open Extended (finite infinity nan)

variable {exp : Rat → Rat}

namespace Truth

/-- Strength, confidence and score are numbers from zero to one. -/
structure Weighs {ν : Type} [Scalar ν] (t : Truth ν) : Prop where
  strength : Scalar.InUnit t.strength
  confidence : Scalar.InUnit t.confidence
  score : Scalar.InUnit t.score

/-- The strength is a number from zero to one, and so are confidence and score unless the evidence is infinite.
Then both are undefined, and no floor is above the confidence. -/
structure Graded (t : Truth (Extended exp)) : Prop where
  strength : Scalar.InUnit t.strength
  weighs_iff : t.Weighs ↔ t.count ≠ infinity
  undefined : t.count = infinity →
    t.confidence = nan ∧ t.score = nan ∧ ∀ floor, Scalar.lt t.confidence floor = false

/-! ## Made truths -/

theorem count_eq_positivePart (strength count : Extended exp) :
    (ofEvidence strength count).count = count.positivePart := by
  unfold ofEvidence
  simp only
  split
  · rename_i h
    rw [Extended.isNaN_iff.1 h]
    exact Extended.zero_eq
  · rename_i h
    exact Extended.max_zero fun e => h (Extended.isNaN_iff.2 e)

theorem count_ofEvidence_eq_infinity_iff {strength count : Extended exp} :
    (ofEvidence strength count).count = infinity ↔ count = infinity := by
  rw [count_eq_positivePart, Extended.positivePart_eq_infinity_iff]

theorem Made.inRange {t : Truth (Extended exp)} (h : t.Made) : t.InRange := by
  obtain ⟨strength, count, rfl⟩ := h
  constructor
  · unfold ofEvidence
    simp only
    split
    · exact Extended.inUnit_iff.2 ⟨1 / 2, Extended.half_eq, by norm_num⟩
    · rename_i h
      exact Extended.inUnit_clampUnit fun e => h (Extended.isNaN_iff.2 e)
  · rw [count_eq_positivePart]
    exact Extended.zero_le_positivePart

theorem made_merge {ν : Type} [Scalar ν] (t u : Truth ν) : (t.merge u).Made := by
  unfold merge
  simp only
  split
  · exact ⟨_, _, rfl⟩
  · exact ⟨_, _, rfl⟩

theorem unknown_inRange : (unknown : Truth (Extended exp)).InRange :=
  ⟨Extended.inUnit_iff.2 ⟨1 / 2, Extended.half_eq, by norm_num⟩,
    Extended.zero_le_iff.2 (.inr ⟨0, Extended.zero_eq, le_rfl⟩)⟩

variable {t u : Truth (Extended exp)}

/-! ## Confidence and score -/

theorem confidence_of_finite {q : Rat} (h : t.count = finite q) (hq : 0 ≤ q) :
    t.confidence = finite (q / (q + 1)) := by
  have hpos : q + 1 ≠ 0 := by positivity
  rw [confidence, h, Extended.one_eq]
  exact if_neg hpos

theorem confidence_of_infinity (h : t.count = infinity) : t.confidence = nan := by
  rw [confidence, h]
  rfl

/-- Evidence that is not infinite makes proper weights. -/
theorem InRange.weighs (ht : t.InRange) (h : t.count ≠ infinity) : t.Weighs := by
  obtain ⟨p, hp, hp0, hp1⟩ := Extended.inUnit_iff.1 ht.strength
  obtain ⟨q, hq, hq0⟩ := (Extended.zero_le_iff.1 ht.count).resolve_left h
  have hconfidence := confidence_of_finite hq hq0
  have hscore : t.score = finite (q / (q + 1) * p) := by
    rw [score, hconfidence, hp]
    rfl
  have hlow : 0 ≤ q / (q + 1) := by positivity
  have hhigh : q / (q + 1) ≤ 1 := div_le_one_of_le₀ (by linarith) (by positivity)
  exact ⟨ht.strength, Extended.inUnit_iff.2 ⟨_, hconfidence, hlow, hhigh⟩,
    Extended.inUnit_iff.2 ⟨_, hscore, mul_nonneg hlow hp0, mul_le_one₀ hhigh hp0 hp1⟩⟩

theorem InRange.graded (ht : t.InRange) : t.Graded where
  strength := ht.strength
  weighs_iff := by
    refine ⟨fun hweighs h => ?_, ht.weighs⟩
    obtain ⟨q, hq, -⟩ := Extended.inUnit_iff.1 hweighs.confidence
    rw [confidence_of_infinity h] at hq
    cases hq
  undefined h := by
    have hconfidence := confidence_of_infinity h
    refine ⟨hconfidence, ?_, fun floor => ?_⟩
    · rw [score, hconfidence]
      rfl
    · rw [hconfidence]
      rfl

/-! ## Merging -/

/-- Infinite evidence on either side leaves infinite evidence, and nothing of the strengths. -/
theorem merge_of_infinity (ht : t.InRange) (hu : u.InRange) (h : t.count = infinity ∨ u.count = infinity) :
    t.merge u = ⟨0.5, infinity⟩ := by
  obtain ⟨p, hp, -⟩ := Extended.inUnit_iff.1 ht.strength
  obtain ⟨q, hq, -⟩ := Extended.inUnit_iff.1 hu.strength
  have htotal : t.count + u.count = infinity := by
    rcases Extended.zero_le_iff.1 ht.count with ht | ⟨m, ht, -⟩
    · rcases Extended.zero_le_iff.1 hu.count with hu | ⟨n, hu, -⟩ <;> rw [ht, hu] <;> rfl
    · rw [ht, h.resolve_left (by rw [ht]; nofun)]
      rfl
  -- the infinite side has no finite weight, so the mean is a quotient of what is not finite by infinity
  have hmean : (t.strength * t.count + u.strength * u.count) / infinity = nan := by
    refine Extended.div_infinity_of_ne fun z hz => ?_
    obtain ⟨⟨x, hx⟩, y, hy⟩ := Extended.finite_of_add hz
    rcases h with h | h
    · rw [h, hp] at hx
      exact Extended.finite_mul_infinity_ne p x hx
    · rw [h, hq] at hy
      exact Extended.finite_mul_infinity_ne q y hy
  have hpositive : Scalar.le (infinity : Extended exp) 0.0 = false := by
    rw [Extended.zero_eq]
    rfl
  have hwiped : ofEvidence nan infinity = (⟨0.5, infinity⟩ : Truth (Extended exp)) := by
    show Truth.mk 0.5 (ofEvidence nan infinity).count = _
    rw [count_eq_positivePart]
    rfl
  unfold merge
  simp only [htotal, hmean]
  rw [hpositive, if_neg Bool.false_ne_true, hwiped]

theorem infinity_of_count_merge (h : (t.merge u).count = infinity) : t.count = infinity ∨ u.count = infinity := by
  unfold merge at h
  simp only at h
  split at h
  · rw [count_ofEvidence_eq_infinity_iff, Extended.zero_eq] at h
    cases h
  · exact Extended.infinity_of_add (count_ofEvidence_eq_infinity_iff.1 h)

theorem count_merge_eq_infinity_iff (ht : t.InRange) (hu : u.InRange) :
    (t.merge u).count = infinity ↔ t.count = infinity ∨ u.count = infinity :=
  ⟨infinity_of_count_merge, fun h => by rw [merge_of_infinity ht hu h]⟩

end Truth

namespace Bracketing

/-- The same brackets around other elements. -/
def map {α β : Type} (f : α → β) : Bracketing α → Bracketing β
  | single a => single (f a)
  | pair left right => pair (left.map f) (right.map f)

theorem elements_map {α β : Type} (f : α → β) (b : Bracketing α) : (b.map f).elements = b.elements.map f := by
  induction b with
  | single a => rfl
  | pair left right ihl ihr => rw [map, elements, elements, ihl, ihr, List.map_append]

/-- A merger of truths in range is in range, and its evidence is infinite if that of one of them is. -/
theorem merged_spec {b : Bracketing (Truth (Extended exp))} (h : ∀ t ∈ b.elements, t.InRange) :
    b.merged.InRange ∧ (b.merged.count = infinity ↔ ∃ t ∈ b.elements, t.count = infinity) := by
  induction b with
  | single t => exact ⟨h t (List.mem_singleton_self t), by simp [elements, merged]⟩
  | pair left right ihl ihr =>
    obtain ⟨hl, hleft⟩ := ihl fun t ht => h t (List.mem_append_left _ ht)
    obtain ⟨hr, hright⟩ := ihr fun t ht => h t (List.mem_append_right _ ht)
    refine ⟨(Truth.made_merge _ _).inRange, ?_⟩
    rw [merged, Truth.count_merge_eq_infinity_iff hl hr, hleft, hright, elements]
    simp only [List.mem_append, or_and_right, exists_or]

end Bracketing

end Atomspace
