import Atomspace.Proofs.Exact
import Atomspace.Truth
import Mathlib.Tactic
/-!
# Weights

Strengths and priorities are weights: they stay in the unit interval, and counts do not go below zero.
Where adding to a weight does not lower it, scalars are `Accruing`. Exact numbers are compared by their
values here (`Exact.le_iff`), so that the bounds become bounds of rationals.
-/

namespace Atomspace

namespace Scalar

variable {ν : Type} [Scalar ν]

/-- From zero to one. -/
def InUnit (x : ν) : Prop :=
  le 0 x = true ∧ le x 1 = true

instance (x : ν) : Decidable (InUnit x) :=
  inferInstanceAs (Decidable (_ ∧ _))

theorem le_of_lt {x y : ν} (h : lt x y = true) : le x y = true :=
  Bool.or_eq_true_iff.2 (.inl h)

/-- Weights are in order. Adding what is not negative takes nothing from a weight, and a gain times a
rate that is not negative is not negative. -/
class Accruing (ν : Type) [Scalar ν] : Prop where
  le_refl {x : ν} : InUnit x → le x x = true
  le_trans {x y z : ν} : InUnit x → InUnit y → InUnit z → le x y = true → le y z = true → le x z = true
  clampUnit_add {x amount : ν} : InUnit x → le 0 amount = true →
    InUnit (clampUnit (x + amount)) ∧ le x (clampUnit (x + amount)) = true
  gain_mul {x y rate : ν} : InUnit x → InUnit y → lt 0.0 (y - x) = true → le 0 rate = true →
    le 0 ((y - x) * rate) = true

end Scalar

namespace Exact

variable {exp : Rat → Rat}

/-! ## Constants -/

theorem value_ofDecimal (digits : Nat) (exponent : Int) :
    (Scalar.ofDecimal { digits, exponent } : Exact exp).value = digits * 10 ^ exponent :=
  one_mul (digits : Rat) ▸ rfl

theorem value_zero : (0.0 : Exact exp).value = 0 :=
  (value_ofDecimal 0 (-1)).trans (by norm_num)

theorem value_half : (0.5 : Exact exp).value = 1 / 2 :=
  (value_ofDecimal 5 (-1)).trans (by norm_num)

theorem value_one : (1.0 : Exact exp).value = 1 :=
  (value_ofDecimal 10 (-1)).trans (by norm_num)

theorem epsilon_pos : 0 < (Scalar.epsilon : Exact exp).value := by
  show (0 : Rat) < mkRat 1 (1 <<< 52)
  decide +kernel

/-! ## Comparisons -/

theorem le_iff {x y : Exact exp} : Scalar.le x y = true ↔ x.value ≤ y.value := by
  show (decide (x.value < y.value) || decide (x.value = y.value)) = true ↔ _
  rw [Bool.or_eq_true, decide_eq_true_iff, decide_eq_true_iff, le_iff_lt_or_eq]

theorem isNaN_eq_false (x : Exact exp) : Scalar.isNaN x = false := by
  show (!decide (x.value = x.value)) = false
  simp

theorem inUnit_iff {x : Exact exp} : Scalar.InUnit x ↔ 0 ≤ x.value ∧ x.value ≤ 1 := by
  rw [Scalar.InUnit, le_iff, le_iff]
  exact Iff.rfl

theorem value_clampUnit (x : Exact exp) : (Scalar.clampUnit x).value = max 0 (min 1 x.value) := by
  show (if decide (x.value < 0) = true then (⟨0⟩ : Exact exp) else
    if decide (1 < x.value) = true then ⟨1⟩ else x).value = _
  simp only [decide_eq_true_eq]
  split
  · rename_i h
    rw [max_eq_left ((min_le_right _ _).trans h.le)]
  · rename_i h
    split
    · rename_i h'
      rw [min_eq_left h'.le, max_eq_right zero_le_one]
    · rename_i h'
      rw [min_eq_right (not_lt.1 h'), max_eq_right (not_lt.1 h)]

theorem inUnit_clampUnit (x : Exact exp) : Scalar.InUnit (Scalar.clampUnit x) := by
  rw [inUnit_iff, value_clampUnit]
  exact ⟨le_max_left _ _, max_le zero_le_one (min_le_left _ _)⟩

theorem value_max (x y : Exact exp) : (Scalar.max x y).value = max x.value y.value := by
  unfold Scalar.max
  rw [isNaN_eq_false y, if_neg Bool.false_ne_true]
  show (if decide (y.value < x.value) = true then x else y).value = _
  simp only [decide_eq_true_eq]
  split
  · rename_i h
    rw [max_eq_left h.le]
  · rename_i h
    rw [max_eq_right (not_lt.1 h)]

theorem value_min (x y : Exact exp) : (Scalar.min x y).value = min x.value y.value := by
  unfold Scalar.min
  rw [isNaN_eq_false y, if_neg Bool.false_ne_true]
  show (if decide (x.value < y.value) = true then x else y).value = _
  simp only [decide_eq_true_eq]
  split
  · rename_i h
    rw [min_eq_left h.le]
  · rename_i h
    rw [min_eq_right (not_lt.1 h)]

instance : Scalar.Accruing (Exact exp) where
  le_refl _ := le_iff.2 le_rfl
  le_trans _ _ _ hxy hyz := le_iff.2 ((le_iff.1 hxy).trans (le_iff.1 hyz))
  clampUnit_add := by
    intro x amount hx hamount
    have hadd : (x + amount).value = x.value + amount.value := rfl
    have hpos : 0 ≤ amount.value := le_iff.1 hamount
    refine ⟨inUnit_clampUnit _, ?_⟩
    rw [le_iff, value_clampUnit, hadd]
    exact le_max_of_le_right (le_min (inUnit_iff.1 hx).2 (le_add_of_nonneg_right hpos))
  gain_mul := by
    intro x y rate _ _ hgain hrate
    have hzero : (0.0 : Exact exp).value = 0 := value_zero
    have hpos : 0 < (y - x).value := hzero ▸ of_decide_eq_true hgain
    exact le_iff.2 (mul_nonneg hpos.le (le_iff.1 hrate))

end Exact

theorem Truth.value_count_ofEvidence {exp : Rat → Rat} (strength count : Exact exp) :
    (Truth.ofEvidence strength count).count.value = max count.value 0 := by
  unfold ofEvidence
  simp only
  rw [Exact.isNaN_eq_false count, if_neg Bool.false_ne_true, Exact.value_max, Exact.value_zero]

end Atomspace
