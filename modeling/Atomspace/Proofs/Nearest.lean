import Atomspace.Proofs.Bits
/-!
# Decimals are read as nearest doubles

A decimal that rounds to a finite value is read as that value (`ofDecimal_eq`). The operations of the
machine keep a whole number and two bits for what is cut off; these bits stand for an exact number
(`Approximates`), and rounding them gives a nearest whole number (`Approximates.nearest`). Products
and quotients of values are therefore the values that their exact results round to (`mul_eq`,
`div_eq`).
-/

namespace Atomspace

open Float.Model (UnpackedFloat Format totalExponent)
open Float.Model.UnpackedFloat (Sign Accuracy ExtendedMantissa)

namespace Decimal.Binary

/-! ## Nearest values -/

/-- A whole number nearest to `w`; of two, the even one. -/
structure Nearest (r : Nat) (w : ℚ) : Prop where
  low_le : (r : ℚ) ≤ w + 1 / 2
  le_high : w ≤ r + 1 / 2
  low_lt : r % 2 = 1 → (r : ℚ) < w + 1 / 2
  lt_high : r % 2 = 1 → w < r + 1 / 2

theorem Nearest.le_of_le {r k : Nat} {w : ℚ} (h : Nearest r w) (hw : (k : ℚ) ≤ w) : k ≤ r := by
  by_contra! hlt
  have hlt : (r : ℚ) + 1 ≤ k := by exact_mod_cast hlt
  linarith [h.le_high]

theorem Nearest.le_of_lt {r k : Nat} {w : ℚ} (h : Nearest r w) (hw : w < k) : r ≤ k := by
  by_contra! hlt
  have hlt : (k : ℚ) + 1 ≤ r := by exact_mod_cast hlt
  linarith [h.low_le]

/-- The parts of a value are its significand and the position of its exponent. -/
theorem ofMagnitude_grid {q r : Nat} (hr : r < 2 ^ 53) (hq : 2 ^ 52 ≤ r ∨ q = 0) :
    ofMagnitude (q * 2 ^ 52 + r) = ⟨r, (q : Int) - 1074, r == 2 ^ 52 && decide (0 < q)⟩ := by
  by_cases hsmall : r < 2 ^ 52
  · obtain rfl : q = 0 := hq.resolve_left (by omega)
    rw [Nat.zero_mul, Nat.zero_add, ofMagnitude_small hsmall]
    simp
  · obtain ⟨k, rfl⟩ : ∃ k, r = 2 ^ 52 + k := ⟨r - 2 ^ 52, by omega⟩
    rw [show q * 2 ^ 52 + (2 ^ 52 + k) = 2 ^ 52 * (q + 1) + k by ring, ofMagnitude_large q (by omega)]
    congr 2
    rw [beq_eq_beq]
    omega

theorem Covers.of_scaled {x : Binary} {w : ℚ} (hlow : (x.lowSignificand : ℚ) ≤ 4 * w)
    (hhigh : w ≤ x.significand + 1 / 2) (hlow' : x.significand % 2 = 1 → (x.lowSignificand : ℚ) < 4 * w)
    (hhigh' : x.significand % 2 = 1 → w < x.significand + 1 / 2) : x.Covers (w * 2 ^ x.exponent) := by
  have hpos : (0 : ℚ) < 2 ^ (x.exponent - 2) := zpow_pos (by norm_num) _
  have hscale : w * 2 ^ x.exponent = 4 * w * 2 ^ (x.exponent - 2) := by
    rw [zpow_sub₀ (by norm_num)]
    ring
  rw [hscale]
  constructor
  · exact mul_le_mul_of_nonneg_right hlow hpos.le
  · refine mul_le_mul_of_nonneg_right ?_ hpos.le
    push_cast
    linarith
  · exact fun hodd => mul_lt_mul_of_pos_right (hlow' hodd) hpos
  · intro hodd
    refine mul_lt_mul_of_pos_right ?_ hpos
    have := hhigh' hodd
    push_cast
    linarith

/-- A number rounds to the value that has the nearest whole number as its significand. -/
theorem covers_of_nearest_lt {q r : Nat} {w : ℚ} (h : Nearest r w) (hw : 0 ≤ w) (hr : r < 2 ^ 53)
    (hq : 2 ^ 52 ≤ w ∨ q = 0) : (ofMagnitude (q * 2 ^ 52 + r)).Covers (w * 2 ^ ((q : Int) - 1074)) := by
  have hgrid : 2 ^ 52 ≤ r ∨ q = 0 := hq.imp_left fun hw => h.le_of_le (by exact_mod_cast hw)
  have hparts := ofMagnitude_grid hr hgrid
  have hcovers := Covers.of_scaled (x := ofMagnitude (q * 2 ^ 52 + r)) (w := w)
  rw [hparts] at hcovers ⊢
  apply hcovers
  · unfold lowSignificand
    split
    · -- below a power of two the gap is half as wide, but nothing below it rounds up to it here
      rename_i hnarrow
      simp only [Bool.and_eq_true, beq_iff_eq, decide_eq_true_eq] at hnarrow
      obtain ⟨rfl, hpos⟩ := hnarrow
      have := hq.resolve_right hpos.ne'
      push_cast
      linarith
    · have := h.low_le
      by_cases hzero : r = 0
      · rw [hzero]
        simpa using hw
      · rw [Nat.cast_sub (by simp only; omega)]
        push_cast
        linarith
  · exact h.le_high
  · intro hodd
    simp only at hodd
    have := h.low_lt hodd
    unfold lowSignificand
    rw [if_neg (by simp only [Bool.and_eq_true, beq_iff_eq]; omega), Nat.cast_sub (by simp only; omega)]
    push_cast
    linarith
  · exact h.lt_high

/-- The next power of two has a unit that is twice as large. -/
theorem covers_of_nearest_carry {q : Nat} {w : ℚ} (h : Nearest (2 ^ 53) w) :
    (ofMagnitude (q * 2 ^ 52 + 2 ^ 53)).Covers (w * 2 ^ ((q : Int) - 1074)) := by
  have hparts := ofMagnitude_grid (q := q + 1) (r := 2 ^ 52) (by norm_num) (.inl le_rfl)
  have hcovers := Covers.of_scaled (x := ofMagnitude ((q + 1) * 2 ^ 52 + 2 ^ 52)) (w := w / 2)
  have hlow := h.low_le
  have hhigh := h.le_high
  have hunit : w * 2 ^ ((q : Int) - 1074) = w / 2 * 2 ^ (((q + 1 : Nat) : Int) - 1074) := by
    rw [show ((q + 1 : Nat) : Int) - 1074 = (q : Int) - 1074 + 1 by push_cast; ring,
      zpow_add₀ (by norm_num)]
    ring
  rw [hparts] at hcovers
  rw [show q * 2 ^ 52 + 2 ^ 53 = (q + 1) * 2 ^ 52 + 2 ^ 52 by ring, hparts, hunit]
  push_cast at hlow hhigh
  apply hcovers
  · unfold lowSignificand
    rw [if_pos (by simp)]
    push_cast
    linarith
  · push_cast
    linarith
  · intro hodd
    norm_num at hodd
  · intro hodd
    norm_num at hodd

theorem covers_of_nearest {q r : Nat} {w : ℚ} (h : Nearest r w) (hw : 0 ≤ w) (hr : r ≤ 2 ^ 53)
    (hq : 2 ^ 52 ≤ w ∨ q = 0) : (ofMagnitude (q * 2 ^ 52 + r)).Covers (w * 2 ^ ((q : Int) - 1074)) := by
  rcases hr.lt_or_eq with hr | rfl
  · exact covers_of_nearest_lt h hw hr hq
  · exact covers_of_nearest_carry h

/-! ## The range of values -/

/-- What rounds to a finite value is not too large. -/
theorem Covers.lt_of_finite {n : Nat} {v : ℚ} (h : (ofMagnitude n).Covers v) (hn : n < 0x7FF * 2 ^ 52) :
    v < 2 ^ 1024 := by
  have hlast : (ofMagnitude (2045 * 2 ^ 52 + (2 ^ 53 - 1))).high < 2 ^ 1024 := by
    rw [ofMagnitude_grid (by norm_num) (.inl (by norm_num)), high, show (2 : ℚ) ^ 1024 = 2 ^ 55 * 2 ^ 969 by
      rw [← pow_add], ← zpow_natCast 2 969]
    exact mul_lt_mul_of_pos_right (by norm_num) (zpow_pos (by norm_num) _)
  refine (h.le_high.trans (high_strictMono.le_iff_le.2 ?_)).trans_lt hlast
  omega

/-- What is less than half the least value rounds to zero. -/
theorem Covers.eq_zero {n : Nat} {v : ℚ} (h : (ofMagnitude n).Covers v) (hv : v < 2 ^ (-1075 : Int)) :
    n = 0 := by
  by_contra hne
  obtain ⟨k, rfl⟩ := Nat.exists_eq_succ_of_ne_zero hne
  have hfirst : (2 : ℚ) ^ (-1075 : Int) = (ofMagnitude 0).high := by
    rw [ofMagnitude_small (by norm_num), high, show (-1075 : Int) = 1 + (-1074 - 2) by norm_num,
      zpow_add₀ (by norm_num)]
    norm_num
  have hhigh : (ofMagnitude 0).high ≤ (ofMagnitude k).high := high_strictMono.le_iff_le.2 (Nat.zero_le k)
  rw [← low_ofMagnitude_succ k] at hhigh
  linarith [h.low_le]

theorem two_pow_le_ten_zpow {e : Int} (he : 400 ≤ e) : (2 : ℚ) ^ 1024 ≤ 10 ^ e :=
  calc (2 : ℚ) ^ 1024 ≤ 2 ^ (3 * 400) := pow_le_pow_right₀ (by norm_num) (by norm_num)
    _ = 8 ^ 400 := by rw [pow_mul]; norm_num
    _ ≤ 10 ^ 400 := pow_le_pow_left₀ (by norm_num) (by norm_num) _
    _ = 10 ^ (400 : Int) := (zpow_natCast 10 400).symm
    _ ≤ 10 ^ e := zpow_le_zpow_right₀ (by norm_num) he

theorem ten_zpow_lt_two_zpow {e : Int} (he : e ≤ -400) : (10 : ℚ) ^ e < 2 ^ (-1075 : Int) :=
  calc (10 : ℚ) ^ e ≤ 10 ^ (-400 : Int) := zpow_le_zpow_right₀ (by norm_num) he
    _ = (10 ^ 400)⁻¹ := by rw [zpow_neg, ← zpow_natCast]; rfl
    _ ≤ (8 ^ 400)⁻¹ := inv_anti₀ (by positivity) (pow_le_pow_left₀ (by norm_num) (by norm_num) _)
    _ = (2 ^ (3 * 400))⁻¹ := by rw [pow_mul]; norm_num
    _ < (2 ^ 1075)⁻¹ := inv_strictAnti₀ (by positivity) (pow_lt_pow_right₀ (by norm_num) (by norm_num))
    _ = 2 ^ (-1075 : Int) := by rw [zpow_neg, ← zpow_natCast]; rfl

end Decimal.Binary

namespace Double

open Decimal.Binary

/-! ## What is cut off -/

/-- A whole number with two bits for what is cut off behind it stands for `w`: the first bit says
whether that is at least one half, the second whether it is neither nothing nor one half. -/
inductive Approximates : ExtendedMantissa → ℚ → Prop
  | exact (m : Nat) : Approximates ⟨m, false, false⟩ m
  | below {m : Nat} {w : ℚ} : m < w → w < m + 1 / 2 → Approximates ⟨m, false, true⟩ w
  | half (m : Nat) : Approximates ⟨m, true, false⟩ (m + 1 / 2)
  | above {m : Nat} {w : ℚ} : m + 1 / 2 < w → w < m + 1 → Approximates ⟨m, true, true⟩ w

variable {x : ExtendedMantissa} {w : ℚ}

theorem Approximates.le (h : Approximates x w) : (x.mantissa : ℚ) ≤ w := by
  cases h <;> simp only <;> linarith

theorem Approximates.lt (h : Approximates x w) : w < x.mantissa + 1 := by
  cases h <;> simp only <;> linarith

theorem shiftRightOne_even (k : Nat) (half rest : Bool) :
    (ExtendedMantissa.mk (2 * k) half rest).shiftRightOne = ⟨k, false, half || rest⟩ := by
  simp [ExtendedMantissa.shiftRightOne]

theorem shiftRightOne_odd (k : Nat) (half rest : Bool) :
    (ExtendedMantissa.mk (2 * k + 1) half rest).shiftRightOne = ⟨k, true, half || rest⟩ := by
  have hdiv : (2 * k + 1) / 2 = k := by omega
  simp [ExtendedMantissa.shiftRightOne, hdiv]

theorem Approximates.shiftRightOne (h : Approximates x w) : Approximates x.shiftRightOne (w / 2) := by
  obtain ⟨m, half, rest⟩ := x
  obtain ⟨k, rfl | rfl⟩ := Nat.even_or_odd' m
  · rw [shiftRightOne_even]
    cases h with
    | exact =>
      rw [show ((2 * k : Nat) : ℚ) / 2 = k by push_cast; ring]
      exact .exact k
    | below => apply below <;> push_cast at * <;> linarith
    | half => apply below <;> push_cast <;> linarith
    | above => apply below <;> push_cast at * <;> linarith
  · rw [shiftRightOne_odd]
    cases h with
    | exact =>
      rw [show ((2 * k + 1 : Nat) : ℚ) / 2 = k + 1 / 2 by push_cast; ring]
      exact .half k
    | below => apply above <;> push_cast at * <;> linarith
    | half => apply above <;> push_cast <;> linarith
    | above => apply above <;> push_cast at * <;> linarith

theorem Approximates.shiftRight (h : Approximates x w) (n : Nat) : Approximates (x >>> n) (w / 2 ^ n) := by
  induction n with
  | zero =>
    rw [pow_zero, div_one]
    exact h
  | succ n ih =>
    have hstep := ih.shiftRightOne
    rw [div_div, ← pow_succ] at hstep
    exact hstep

/-- The whole part of a quotient, with the order of twice the remainder and the divisor. -/
theorem approximates_fraction (a : Nat) {b : Nat} (hb : 0 < b) :
    Approximates (.ofMantissaAndAccuracy (a / b) (UnpackedFloat.accuracyOfFraction (a % b) b)) (a / b : ℚ) := by
  have hpos : (0 : ℚ) < b := by exact_mod_cast hb
  have hlt : ((a % b : Nat) : ℚ) < b := by exact_mod_cast Nat.mod_lt a hb
  have hsplit : (a : ℚ) / b = (a / b : Nat) + (a % b : Nat) / b := by
    have ha : (a : ℚ) = b * (a / b : Nat) + (a % b : Nat) := by exact_mod_cast (Nat.div_add_mod a b).symm
    rw [div_eq_iff hpos.ne', add_mul, div_mul_cancel₀ _ hpos.ne']
    linarith
  rw [hsplit]
  generalize a / b = k
  generalize a % b = r at hlt
  unfold UnpackedFloat.accuracyOfFraction
  by_cases hr : r = 0
  · rw [if_pos hr, hr, Nat.cast_zero, zero_div, add_zero]
    exact .exact k
  rw [if_neg hr]
  have hr : (0 : ℚ) < r := by exact_mod_cast Nat.pos_of_ne_zero hr
  rcases lt_trichotomy (2 * r) b with h | h | h
  · rw [compare_lt_iff_lt.2 h]
    have h : (2 : ℚ) * r < b := by exact_mod_cast h
    apply Approximates.below
    · exact lt_add_of_pos_right _ (div_pos hr hpos)
    · refine add_lt_add_right ((div_lt_iff₀ hpos).2 ?_) _
      linarith
  · rw [compare_eq_iff_eq.2 h]
    have h : (2 : ℚ) * r = b := by exact_mod_cast h
    rw [show (r : ℚ) / b = 1 / 2 by rw [div_eq_iff hpos.ne']; linarith]
    exact .half k
  · rw [compare_gt_iff_gt.2 h]
    have h : (b : ℚ) < 2 * r := by exact_mod_cast h
    apply Approximates.above
    · refine add_lt_add_right ((lt_div_iff₀ hpos).2 ?_) _
      linarith
    · exact add_lt_add_right ((div_lt_one hpos).2 hlt) _

/-- Rounding gives a nearest whole number. -/
theorem Approximates.nearest (h : Approximates x w) : Nearest x.roundedMantissa w := by
  cases h with
  | exact m =>
    change Nearest m m
    constructor <;> intros <;> linarith
  | @below m w hlow hhigh =>
    change Nearest m w
    constructor <;> intros <;> linarith
  | half m =>
    change Nearest (m + m % 2) _
    obtain ⟨k, rfl | rfl⟩ := Nat.even_or_odd' m
    · rw [Nat.mul_mod_right, Nat.add_zero]
      constructor <;> intros <;> first | omega | linarith
    · rw [Nat.mul_add_mod_self_left]
      constructor <;> intros <;> first | omega | (push_cast; linarith)
  | @above m w hlow hhigh =>
    change Nearest (m + 1) w
    constructor <;> intros <;> push_cast <;> linarith

/-! ## Rounding -/

theorem targetExponent_eq (m : Nat) (e : Int) : Format.binary64.targetExponent (totalExponent m e) =
    max (m.log2 + e - 52) (-1074) := by
  show max ((m.log2 : Int) + 1 + e - (1 + 52 : Nat)) (3 - 2 ^ 10 - (1 + 52 : Nat)) = _
  congr 1
  push_cast
  ring

/-- Moving the point to the exponent of the result. -/
theorem shiftToTargetExponent_eq (m : Nat) (e : Int) (a : Accuracy) {t : Int}
    (ht : max (m.log2 + e - 52) (-1074) = t) (he : e ≤ t) :
    UnpackedFloat.shiftToTargetExponent Format.binary64 m e a =
      (ExtendedMantissa.ofMantissaAndAccuracy m a >>> (t - e).toNat, t) := by
  unfold UnpackedFloat.shiftToTargetExponent UnpackedFloat.shiftToExponent
  simp only [targetExponent_eq, ht]
  congr 1
  omega

theorem signed_grid (s : Sign) {q r : Nat} (hr : r < 2 ^ 53) (hgrid : 2 ^ 52 ≤ r ∨ q = 0)
    (hfinite : q * 2 ^ 52 + r < infinite) (hpos : 0 < r) :
    signed s (q * 2 ^ 52 + r) = .finite s r ((q : Int) - 1074) hpos := by
  rw [signed_finite s (by omega) hfinite]
  congr 1 <;> rw [ofMagnitude_grid hr hgrid]

/-- A rounded result is kept, but for a carry into the next power of two. -/
theorem roundWithAccuracy_grid (s : Sign) {m : Nat} {e : Int} {a : Accuracy} {q r : Nat}
    (ht : max (m.log2 + e - 52) (-1074) = (q : Int) - 1074) (he : e ≤ (q : Int) - 1074)
    (hr : (ExtendedMantissa.ofMantissaAndAccuracy m a >>> ((q : Int) - 1074 - e).toNat).roundedMantissa = r)
    (hle : r ≤ 2 ^ 53) (hgrid : 2 ^ 52 ≤ r ∨ q = 0) (hfinite : q * 2 ^ 52 + r < infinite) :
    UnpackedFloat.roundWithAccuracy Format.binary64 s m e a = signed s (q * 2 ^ 52 + r) := by
  unfold UnpackedFloat.roundWithAccuracy
  simp only [shiftToTargetExponent_eq m e a ht he, hr]
  rcases hle.lt_or_eq with hlt | rfl
  · have hkeep : max (r.log2 + ((q : Int) - 1074) - 52) (-1074) = (q : Int) - 1074 := by
      by_cases hsmall : 2 ^ 52 ≤ r
      · have hlow := (Nat.le_log2 (by omega)).2 hsmall
        have hhigh := (Nat.log2_lt (by omega)).2 hlt
        omega
      · obtain rfl := hgrid.resolve_left hsmall
        by_cases hzero : r = 0
        · simp [hzero]
        · have := (Nat.log2_lt hzero).2 hlt
          omega
    simp only [shiftToTargetExponent_eq r _ .exact hkeep le_rfl, sub_self, Int.toNat_zero]
    by_cases hzero : r = 0
    · obtain rfl : q = 0 := hgrid.resolve_left (by omega)
      subst hzero
      rfl
    · rw [signed_grid s hlt hgrid hfinite (Nat.pos_of_ne_zero hzero)]
      exact dif_neg hzero
  · have hcarry : max ((2 ^ 53 : Nat).log2 + ((q : Int) - 1074) - 52) (-1074) = ((q + 1 : Nat) : Int) - 1074 := by
      rw [Nat.log2_two_pow]
      omega
    have hone : (((q + 1 : Nat) : Int) - 1074 - ((q : Int) - 1074)).toNat = 1 := by omega
    rw [show q * 2 ^ 52 + 2 ^ 53 = (q + 1) * 2 ^ 52 + 2 ^ 52 by ring] at hfinite ⊢
    simp only [shiftToTargetExponent_eq _ _ .exact hcarry (by omega), hone]
    rw [signed_grid s (by norm_num) (.inl le_rfl) hfinite (by norm_num)]
    rfl

@[simp] theorem mantissa_ofMantissaAndAccuracy (m : Nat) (a : Accuracy) :
    (ExtendedMantissa.ofMantissaAndAccuracy m a).mantissa = m := by
  cases a with
  | exact => rfl
  | inexact o => cases o <;> rfl

/-- At the exponent of the result the exact result lies in the range of significands. -/
theorem scaled_range {m q k : Nat} {e : Int} (hq : max ((m.log2 : Int) + e - 52) (-1074) = (q : Int) - 1074)
    (hk : (q : Int) - 1074 = e + k) (hle : (m : ℚ) ≤ w) (hlt : w < m + 1) :
    w / 2 ^ k < 2 ^ 53 ∧ (2 ^ 52 ≤ w / 2 ^ k ∨ q = 0) := by
  have hpow : (0 : ℚ) < 2 ^ k := by positivity
  constructor
  · have hm : m + 1 ≤ 2 ^ (53 + k) := by
      refine Nat.lt_log2_self.trans_le (Nat.pow_le_pow_right (by norm_num) ?_)
      omega
    rw [div_lt_iff₀ hpow, ← pow_add]
    refine hlt.trans_le ?_
    exact_mod_cast hm
  · refine or_iff_not_imp_right.2 fun hpos => ?_
    have hlog : m.log2 = 52 + k := by omega
    have hm : 2 ^ (52 + k) ≤ m := by
      rw [← hlog]
      refine Nat.log2_self_le ?_
      rintro rfl
      simp at hlog
      omega
    rw [le_div_iff₀ hpow, ← pow_add]
    refine le_trans ?_ hle
    exact_mod_cast hm

/-- The exact result rounds to some value, which is the result unless it is too large. -/
theorem exists_roundWithAccuracy (s : Sign) {m : Nat} {e : Int} {a : Accuracy} {w : ℚ}
    (h : Approximates (.ofMantissaAndAccuracy m a) w) (he : e ≤ max (m.log2 + e - 52) (-1074)) :
    ∃ n, (ofMagnitude n).Covers (w * 2 ^ e) ∧
      (n < infinite → UnpackedFloat.roundWithAccuracy Format.binary64 s m e a = signed s n) := by
  obtain ⟨q, hq⟩ : ∃ q : Nat, max ((m.log2 : Int) + e - 52) (-1074) = (q : Int) - 1074 :=
    ⟨(max ((m.log2 : Int) + e - 52) (-1074) + 1074).toNat, by omega⟩
  rw [hq] at he
  obtain ⟨k, hk⟩ : ∃ k : Nat, (q : Int) - 1074 = e + k := ⟨((q : Int) - 1074 - e).toNat, by omega⟩
  have hshift : ((q : Int) - 1074 - e).toNat = k := by omega
  have hscale : w * 2 ^ e = w / 2 ^ k * 2 ^ ((q : Int) - 1074) := by
    rw [hk, zpow_add₀ (by norm_num), zpow_natCast]
    field_simp
  have hle : (m : ℚ) ≤ w := by simpa using h.le
  have hlt : w < m + 1 := by simpa using h.lt
  obtain ⟨hhigh, hlow⟩ := scaled_range hq hk hle hlt
  have hnearest := (h.shiftRight k).nearest
  have hr := hnearest.le_of_lt (k := 2 ^ 53) (by exact_mod_cast hhigh)
  have hpos : 0 ≤ w / 2 ^ k := div_nonneg ((Nat.cast_nonneg m).trans hle) (by positivity)
  have hgrid := covers_of_nearest (q := q) hnearest hpos hr hlow
  rw [← hscale] at hgrid
  refine ⟨_, hgrid, fun hn => roundWithAccuracy_grid s hq he (by rw [hshift]) hr ?_ hn⟩
  exact hlow.imp_left fun hw => hnearest.le_of_le (by exact_mod_cast hw)

/-- The result is the value that the exact result rounds to. -/
theorem roundWithAccuracy_eq (s : Sign) {m : Nat} {e : Int} {a : Accuracy} {w : ℚ} {n : Nat}
    (h : Approximates (.ofMantissaAndAccuracy m a) w) (he : e ≤ max (m.log2 + e - 52) (-1074))
    (hn : n < infinite) (hcovers : (ofMagnitude n).Covers (w * 2 ^ e)) :
    UnpackedFloat.roundWithAccuracy Format.binary64 s m e a = signed s n := by
  obtain ⟨k, hk, hround⟩ := exists_roundWithAccuracy s h he
  obtain rfl := hcovers.unique hk
  exact hround hn

theorem shiftLeft_ne_zero {m : Nat} (hm : m ≠ 0) (k : Nat) : m <<< k ≠ 0 := by
  rw [Nat.shiftLeft_eq]
  positivity

theorem log2_shiftLeft_ge {m : Nat} (hm : m ≠ 0) (k : Nat) : m.log2 + k ≤ (m <<< k).log2 := by
  rw [Nat.le_log2 (shiftLeft_ne_zero hm k), Nat.shiftLeft_eq, pow_add]
  exact Nat.mul_le_mul_right _ (Nat.log2_self_le hm)

/-- A number of any length is brought to enough digits first. -/
theorem exists_round (s : Sign) {m : Nat} (hm : m ≠ 0) (e : Int) :
    ∃ n, (ofMagnitude n).Covers (m * 2 ^ e) ∧
      (n < infinite → UnpackedFloat.round Format.binary64 s m e = signed s n) := by
  unfold UnpackedFloat.round UnpackedFloat.decreaseExponent
  simp only [targetExponent_eq]
  generalize hk : (e - max ((m.log2 : Int) + e - 52) (-1074)).toNat = k
  have hlog := log2_shiftLeft_ge hm k
  have hround := exists_roundWithAccuracy s (m := m <<< k) (e := e - k) (a := .exact) (.exact _) (by omega)
  have hscale : ((m <<< k : Nat) : ℚ) * 2 ^ (e - (k : Int)) = m * 2 ^ e := by
    rw [Nat.shiftLeft_eq, zpow_sub₀ (by norm_num), zpow_natCast]
    push_cast
    field_simp
  rwa [hscale] at hround

/-! ## Products and quotients -/

section
variable {s₁ s₂ : Sign} {m₁ m₂ : Nat} {e₁ e₂ : Int} {h₁ : 0 < m₁} {h₂ : 0 < m₂} {n : Nat}

/-- A product of enough digits is the value that the exact product rounds to. -/
theorem mul_eq (hlarge : 2 ^ 52 ≤ m₁ * m₂) (hn : n < infinite)
    (hcovers : (ofMagnitude n).Covers (m₁ * 2 ^ e₁ * (m₂ * 2 ^ e₂))) :
    UnpackedFloat.mul Format.binary64 (.finite s₁ m₁ e₁ h₁) (.finite s₂ m₂ e₂ h₂) = signed (s₁ * s₂) n := by
  have hlog := (Nat.le_log2 (Nat.mul_pos h₁ h₂).ne').2 hlarge
  have hscale : (m₁ * 2 ^ e₁ * (m₂ * 2 ^ e₂) : ℚ) = (m₁ * m₂ : Nat) * 2 ^ (e₁ + e₂) := by
    rw [zpow_add₀ (by norm_num)]
    push_cast
    ring
  rw [hscale] at hcovers
  exact roundWithAccuracy_eq _ (.exact (m₁ * m₂)) (by omega) hn hcovers

theorem log2_div_ge {a b k : Nat} (hb : 0 < b) (h : b.log2 + 1 + k ≤ a.log2) (ha : a ≠ 0) :
    k ≤ (a / b).log2 := by
  have hle : 2 ^ k ≤ a / b := by
    rw [Nat.le_div_iff_mul_le hb]
    calc 2 ^ k * b ≤ 2 ^ k * 2 ^ (b.log2 + 1) := Nat.mul_le_mul_left _ Nat.lt_log2_self.le
      _ = 2 ^ (b.log2 + 1 + k) := by rw [← pow_add, Nat.add_comm]
      _ ≤ 2 ^ a.log2 := Nat.pow_le_pow_right (by norm_num) h
      _ ≤ a := Nat.log2_self_le ha
  have hpos : 0 < 2 ^ k := by positivity
  exact (Nat.le_log2 (by omega)).2 hle

/-- A quotient is the value that the exact quotient rounds to: the dividend is first brought to a
length that gives enough digits. -/
theorem div_eq (hn : n < infinite) (hcovers : (ofMagnitude n).Covers (m₁ * 2 ^ e₁ / (m₂ * 2 ^ e₂))) :
    UnpackedFloat.div Format.binary64 (.finite s₁ m₁ e₁ h₁) (.finite s₂ m₂ e₂ h₂) = signed (s₁ / s₂) n := by
  have htarget : Format.binary64.targetExponent (totalExponent m₁ e₁ - totalExponent m₂ e₂) =
      max ((m₁.log2 : Int) + e₁ - (m₂.log2 + e₂) - 53) (-1074) := by
    show max ((m₁.log2 : Int) + 1 + e₁ - ((m₂.log2 : Int) + 1 + e₂) - (1 + 52 : Nat))
      (3 - 2 ^ 10 - (1 + 52 : Nat)) = _
    congr 1
    push_cast
    ring
  unfold UnpackedFloat.div UnpackedFloat.divCore
  simp only [htarget]
  generalize ht : min (e₁ - e₂) (max ((m₁.log2 : Int) + e₁ - (m₂.log2 + e₂) - 53) (-1074)) = t
  obtain ⟨k, hk⟩ : ∃ k : Nat, e₁ - e₂ = t + k := ⟨(e₁ - e₂ - t).toNat, by omega⟩
  rw [show (e₁ - e₂ - t).toNat = k by omega]
  have hlog := log2_shiftLeft_ge h₁.ne' k
  refine roundWithAccuracy_eq _ (approximates_fraction (m₁ <<< k) h₂) ?_ hn ?_
  · by_cases hsmall : t ≤ -1074
    · omega
    · have := log2_div_ge (k := 52) h₂ (show m₂.log2 + 1 + 52 ≤ (m₁ <<< k).log2 by omega)
        (shiftLeft_ne_zero h₁.ne' k)
      omega
  · have hexp : (2 : ℚ) ^ e₁ = 2 ^ k * 2 ^ t * 2 ^ e₂ := by
      rw [← zpow_natCast, ← zpow_add₀ (by norm_num), ← zpow_add₀ (by norm_num)]
      congr 1
      omega
    have hscale : ((m₁ <<< k : Nat) : ℚ) / m₂ * 2 ^ t = m₁ * 2 ^ e₁ / (m₂ * 2 ^ e₂) := by
      rw [Nat.shiftLeft_eq, hexp]
      push_cast
      field_simp
    rwa [hscale]

end

/-! ## Numbers of the machine -/

/-- The number with a sign and a magnitude. -/
def packed (s : Sign) (n : Nat) : Float := ⟨Float.Model.pack (signed s n)⟩

theorem toNat_toBits_packed (s : Sign) {n : Nat} (hn : n ≤ infinite) :
    (packed s n).toBits.toNat = s.toBitVec.toNat * 2 ^ 63 + n :=
  toNat_pack s hn

theorem unpack_packed (s : Sign) {n : Nat} (hn : n ≤ infinite) :
    (packed s n).toModel.unpack = signed s n := by
  have hbits := toNat_toBits_packed s hn
  have hsmall : n < 2 ^ 63 := hn.trans_lt (by decide)
  have hbit : s.toBitVec.toNat < 2 := s.toBitVec.isLt
  show UnpackedFloat.unpack Format.binary64 (packed s n).toBits.toBitVec = _
  rw [unpack_eq, signOf_of_toNat hbits hsmall, hbits,
    show (s.toBitVec.toNat * 2 ^ 63 + n) % 2 ^ 63 = n by omega]

/-- The number is a finite value with all its digits. -/
def Represents (f : Float) (v : ℚ) : Prop :=
  ∃ n, n < infinite ∧ f.toModel.unpack = signed .positive n ∧
    2 ^ 52 ≤ (ofMagnitude n).significand ∧ (ofMagnitude n).value = v

theorem Represents.exists_finite {f : Float} {v : ℚ} (h : Represents f v) : ∃ m e hm,
    f.toModel.unpack = .finite .positive m e hm ∧ 2 ^ 52 ≤ m ∧ (m : ℚ) * 2 ^ e = v := by
  obtain ⟨n, hn, hunpack, hlarge, hvalue⟩ := h
  have hne : n ≠ 0 := by
    rintro rfl
    rw [ofMagnitude_small (by norm_num)] at hlarge
    norm_num at hlarge
  exact ⟨_, _, _, hunpack.trans (signed_finite _ hne hn), hlarge, hvalue⟩

theorem Represents.mul {f g : Float} {v w : ℚ} (hf : Represents f v) (hg : Represents g w) {n : Nat}
    (hn : n < infinite) (hcovers : (ofMagnitude n).Covers (v * w)) : f * g = packed .positive n := by
  obtain ⟨m₁, e₁, h₁, hunpack₁, hlarge₁, rfl⟩ := hf.exists_finite
  obtain ⟨m₂, e₂, h₂, hunpack₂, -, rfl⟩ := hg.exists_finite
  show (⟨Float.Model.pack (UnpackedFloat.mul _ f.toModel.unpack g.toModel.unpack)⟩ : Float) = _
  rw [hunpack₁, hunpack₂, mul_eq (hlarge₁.trans (Nat.le_mul_of_pos_right _ h₂)) hn hcovers]
  rfl

theorem Represents.div {f g : Float} {v w : ℚ} (hf : Represents f v) (hg : Represents g w) {n : Nat}
    (hn : n < infinite) (hcovers : (ofMagnitude n).Covers (v / w)) : f / g = packed .positive n := by
  obtain ⟨m₁, e₁, h₁, hunpack₁, -, rfl⟩ := hf.exists_finite
  obtain ⟨m₂, e₂, h₂, hunpack₂, -, rfl⟩ := hg.exists_finite
  show (⟨Float.Model.pack (UnpackedFloat.div _ f.toModel.unpack g.toModel.unpack)⟩ : Float) = _
  rw [hunpack₁, hunpack₂, div_eq hn hcovers]
  rfl

/-- A whole number is read as the value it rounds to. -/
theorem ofNat_eq {m n : Nat} (hm : m ≠ 0) (hn : n < infinite) (hcovers : (ofMagnitude n).Covers m) :
    UnpackedFloat.ofNat Format.binary64 m = signed .positive n := by
  have hgt : compare (m : Int) 0 = .gt := compare_gt_iff_gt.2 (by omega)
  obtain ⟨k, hk, hround⟩ := exists_round .positive hm 0
  rw [zpow_zero, mul_one] at hk
  obtain rfl := hcovers.unique hk
  unfold UnpackedFloat.ofNat UnpackedFloat.ofInt UnpackedFloat.normalize
  rw [hgt]
  exact hround hn

/-- Whole numbers with few digits are exact. -/
theorem represents_toFloat {m : Nat} (hm : m ≠ 0) (hlt : m < 2 ^ 53) : Represents m.toUInt64.toFloat m := by
  have hlog := (Nat.log2_lt hm).2 hlt
  obtain ⟨k, hk⟩ : ∃ k, m.log2 + k = 52 := ⟨52 - m.log2, by omega⟩
  have hhigh : m * 2 ^ k < 2 ^ 53 := by
    rw [show 2 ^ 53 = 2 ^ (m.log2 + 1) * 2 ^ k by rw [← pow_add]; congr 1; omega]
    exact Nat.mul_lt_mul_of_pos_right Nat.lt_log2_self (by positivity)
  have hlow : 2 ^ 52 ≤ m * 2 ^ k := by
    rw [← hk, pow_add]
    exact Nat.mul_le_mul_right _ (Nat.log2_self_le hm)
  have hgrid := ofMagnitude_grid (q := 1074 - k) hhigh (.inl hlow)
  have hfinite : (1074 - k) * 2 ^ 52 + m * 2 ^ k < infinite := by
    unfold infinite
    omega
  have hvalue : (ofMagnitude ((1074 - k) * 2 ^ 52 + m * 2 ^ k)).value = m := by
    rw [hgrid, Decimal.Binary.value, show ((1074 - k : Nat) : Int) - 1074 = -(k : Int) by omega, zpow_neg, zpow_natCast]
    push_cast
    field_simp
  have hcovers := covers_value (x := ofMagnitude ((1074 - k) * 2 ^ 52 + m * 2 ^ k)) (by
    rw [hgrid]
    simp only
    omega)
  rw [hvalue] at hcovers
  refine ⟨_, hfinite, ?_, by rw [hgrid]; exact hlow, hvalue⟩
  rw [← unpack_packed _ hfinite.le, packed, ← ofNat_eq hm hfinite hcovers]
  show (Float.Model.pack (UnpackedFloat.ofNat _ m.toUInt64.toNat)).unpack = _
  rw [Nat.toUInt64, UInt64.toNat_ofNat', Nat.mod_eq_of_lt (hlt.trans (by norm_num))]

theorem represents_of_bits {f : Float} (hn : f.toBits.toNat < infinite)
    (hlarge : 2 ^ 52 ≤ (ofMagnitude f.toBits.toNat).significand) :
    Represents f (ofMagnitude f.toBits.toNat).value := by
  have hsmall : f.toBits.toNat < 2 ^ 63 := hn.trans (by decide)
  refine ⟨_, hn, ?_, hlarge, rfl⟩
  show UnpackedFloat.unpack Format.binary64 f.toBits.toBitVec = _
  rw [unpack_eq, Nat.mod_eq_of_lt hsmall, signOf, if_pos hsmall]

theorem powersOfTen_bits : ∀ e : Fin 23, let n := Float.exactlyRepresentablePowersOfTen[e].toBits.toNat
    n < infinite ∧ 2 ^ 52 ≤ (ofMagnitude n).significand ∧ -52 ≤ (ofMagnitude n).exponent ∧
      (ofMagnitude n).significand * 2 ^ ((ofMagnitude n).exponent + 52).toNat = 10 ^ e.val * 2 ^ 52 := by
  decide +kernel

theorem value_eq_of_scaled {x : Decimal.Binary} {k c : Nat} (he : -(k : Int) ≤ x.exponent)
    (h : x.significand * 2 ^ (x.exponent + k).toNat = c * 2 ^ k) : x.value = c := by
  obtain ⟨i, hi⟩ : ∃ i : Nat, x.exponent + k = i := ⟨(x.exponent + k).toNat, by omega⟩
  have hexponent : x.exponent = (i : Int) - k := by omega
  have hcast : (x.significand : ℚ) * 2 ^ i = c * 2 ^ k := by
    rw [hi, Int.toNat_natCast] at h
    exact_mod_cast h
  rw [Decimal.Binary.value, hexponent, zpow_sub₀ (by norm_num), zpow_natCast, zpow_natCast, ← mul_div_assoc,
    hcast]
  field_simp

/-- The powers of ten that products and quotients are taken with are exact. -/
theorem represents_powerOfTen {e : Nat} (he : e < Float.exactlyRepresentablePowersOfTen.size) :
    Represents Float.exactlyRepresentablePowersOfTen[e] (10 ^ e) := by
  obtain ⟨hn, hlarge, hexponent, hvalue⟩ := powersOfTen_bits ⟨e, he⟩
  have hrepresents := represents_of_bits hn hlarge
  rw [value_eq_of_scaled (k := 52) hexponent hvalue] at hrepresents
  exact_mod_cast hrepresents

/-! ## Decimals -/

/-- A decimal with digits is read as the value that it rounds to. -/
theorem ofScientific_eq {m : Nat} (hm : m ≠ 0) {e : Int} {n : Nat} (hn : n < infinite)
    (hcovers : (ofMagnitude n).Covers (m * 10 ^ e)) :
    UnpackedFloat.ofScientific Format.binary64 m e = signed .positive n := by
  have hone : (1 : ℚ) ≤ m := by exact_mod_cast Nat.pos_of_ne_zero hm
  have hten (k : Int) : (0 : ℚ) < 10 ^ k := zpow_pos (by norm_num) k
  unfold UnpackedFloat.ofScientific
  rw [dif_neg hm]
  split_ifs with hlarge hsmall hpos
  · norm_num at hlarge
    have hbig := (two_pow_le_ten_zpow (e := e) (by omega)).trans (le_mul_of_one_le_left (hten e).le hone)
    exact absurd (hcovers.lt_of_finite hn) hbig.not_gt
  · norm_num at hsmall
    have hdigits : (m : ℚ) ≤ 10 ^ ((m.log2 + 1 : Nat) : Int) := by
      have hlt : m ≤ 10 ^ (m.log2 + 1) :=
        Nat.lt_log2_self.le.trans (Nat.pow_le_pow_left (by norm_num) _)
      exact_mod_cast hlt
    have hle : (m : ℚ) * 10 ^ e ≤ 10 ^ (((m.log2 + 1 : Nat) : Int) + e) := by
      rw [zpow_add₀ (by norm_num)]
      exact mul_le_mul_of_nonneg_right hdigits (hten e).le
    obtain rfl := hcovers.eq_zero (hle.trans_lt (ten_zpow_lt_two_zpow (by omega)))
    rfl
  · obtain ⟨k, rfl⟩ := Int.eq_ofNat_of_zero_le hpos
    refine mul_eq ?_ hn ?_ <;> rw [show Format.binary64.mantissaBits = 53 from rfl, Nat.shiftLeft_eq]
    · exact (Nat.le_mul_of_pos_right _ (by positivity)).trans' (by omega)
    · have hscale : ((m * 2 ^ 53 : Nat) : ℚ) * 2 ^ (-((53 : Nat) : Int)) *
          ((10 ^ (k : Int).toNat : Nat) * 2 ^ (0 : Int)) = m * 10 ^ (k : Int) := by
        rw [zpow_neg, zpow_natCast, zpow_natCast, Int.toNat_natCast]
        push_cast
        field_simp
        norm_num
      rw [hscale]
      exact hcovers
  · obtain ⟨k, rfl⟩ : ∃ k : Nat, e = -k := ⟨(-e).toNat, by omega⟩
    have hscale : (m : ℚ) * 2 ^ (0 : Int) / (((10 ^ (-(-(k : Int))).toNat : Nat) : ℚ) * 2 ^ (0 : Int)) =
        m * 10 ^ (-(k : Int)) := by
      rw [neg_neg, Int.toNat_natCast, zpow_neg, zpow_natCast, zpow_zero, mul_one, mul_one, div_eq_mul_inv]
      push_cast
      rfl
    refine div_eq hn ?_
    rw [hscale]
    exact hcovers

/-- Few digits and small powers of ten are exact, and one product or quotient of them is rounded; all
other numerals are rounded from the exact number. -/
theorem floatOfScientific_eq {m : Nat} (hm : m ≠ 0) (negative : Bool) (e : Nat) {n : Nat} (hn : n < infinite)
    (hcovers : (ofMagnitude n).Covers (m * 10 ^ (if negative then -(e : Int) else e))) :
    Float.ofScientific m negative e = packed .positive n := by
  unfold Float.ofScientific
  split
  · rename_i hsmall
    have hdigits := represents_toFloat hm hsmall.1
    have hpower := represents_powerOfTen (e := e) (Nat.lt_succ_of_le hsmall.2)
    cases negative
    · rw [if_neg Bool.false_ne_true, zpow_natCast] at hcovers
      exact hdigits.mul hpower hn hcovers
    · rw [if_pos rfl, zpow_neg, zpow_natCast, ← div_eq_mul_inv] at hcovers
      exact hdigits.div hpower hn hcovers
  · cases negative
    · exact congrArg (fun u => (⟨Float.Model.pack u⟩ : Float)) (ofScientific_eq hm hn hcovers)
    · have hexponent : Int.negOfNat e = -(e : Int) := Int.negOfNat_eq
      rw [if_pos rfl, ← hexponent] at hcovers
      exact congrArg (fun u => (⟨Float.Model.pack u⟩ : Float)) (ofScientific_eq hm hn hcovers)

theorem neg_packed (s : Sign) {n : Nat} (hn : n < infinite) : -packed s n = packed (-s) n := by
  show (⟨Float.Model.pack (packed s n).toModel.unpack.neg⟩ : Float) = _
  rw [unpack_packed s hn.le, packed]
  congr 2
  by_cases hzero : n = 0
  · rw [hzero]
    rfl
  · rw [signed_finite _ hzero hn, signed_finite _ hzero hn]
    rfl

theorem lt_ten_pow_length (m : Nat) : m < 10 ^ (toString m).length := by
  rw [← String.length_toList, Decimal.toList_toString]
  exact (Nat.length_toDigits_le_iff (by norm_num) Nat.length_toDigits_pos).1 le_rfl

theorem ten_pow_length_le {m : Nat} (hm : m ≠ 0) : 10 ^ ((toString m).length - 1) ≤ m := by
  rw [← String.length_toList, Decimal.toList_toString]
  generalize hl : (Nat.toDigits 10 m).length = l
  rcases Nat.lt_or_ge 1 l with hlong | hshort
  · have hiff := Nat.length_toDigits_le_iff (b := 10) (n := m) (k := l - 1) (by norm_num) (by omega)
    by_contra! hlt
    have := hiff.2 hlt
    omega
  · rw [Nat.sub_eq_zero_of_le hshort, pow_zero]
    omega

/-- A decimal that rounds to a finite value is read as that value: the powers of ten that are not
computed are out of range. -/
theorem ofDecimal_eq {d : Decimal} {n : Nat} (hn : n < infinite) (hcovers : (ofMagnitude n).Covers d.magnitude) :
    ofDecimal d = ⟨packed (if d.negative then .negative else .positive) n, false⟩ := by
  obtain ⟨negative, m, e⟩ := d
  have hten (k : Int) : (0 : ℚ) < 10 ^ k := zpow_pos (by norm_num) k
  have hzero : (0 : Float) = packed .positive 0 := by decide +kernel
  change (ofMagnitude n).Covers (m * 10 ^ e) at hcovers
  have hunsigned : (if m = 0 then (0 : Float) else if 400 < ((toString m).length : Int) + e then 1 / 0
      else if ((toString m).length : Int) + e < -400 then 0
      else Float.ofScientific m (decide (e < 0)) e.natAbs) = packed .positive n := by
    split_ifs with hm hlarge hsmall
    · rw [hm, Nat.cast_zero, zero_mul] at hcovers
      rw [hcovers.eq_zero (by positivity), hzero]
    · have hlow : (10 : ℚ) ^ (((toString m).length - 1 : Nat) : Int) ≤ m := by
        exact_mod_cast ten_pow_length_le hm
      have hbig := (two_pow_le_ten_zpow (e := ((toString m).length - 1 : Nat) + e) (by omega)).trans
        ((zpow_add₀ (by norm_num) _ e).le.trans (mul_le_mul_of_nonneg_right hlow (hten e).le))
      exact absurd (hcovers.lt_of_finite hn) hbig.not_gt
    · have hhigh : (m : ℚ) ≤ 10 ^ ((toString m).length : Int) := by
        exact_mod_cast (lt_ten_pow_length m).le
      have hle := (mul_le_mul_of_nonneg_right hhigh (hten e).le).trans (zpow_add₀ (by norm_num) _ e).ge
      rw [hcovers.eq_zero (hle.trans_lt (ten_zpow_lt_two_zpow (by omega))), hzero]
    · refine floatOfScientific_eq hm _ _ hn ?_
      have hexponent : (if decide (e < 0) = true then -(e.natAbs : Int) else e.natAbs) = e := by
        simp only [decide_eq_true_eq]
        split <;> omega
      rwa [hexponent]
  unfold ofDecimal
  simp only [hunsigned]
  cases negative
  · rfl
  · rw [if_pos rfl, if_pos rfl, neg_packed _ hn]
    rfl

end Double

end Atomspace
