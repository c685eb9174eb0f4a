import Atomspace.Proofs.Nearest
import Atomspace.Proofs.Weights
/-!
# Doubles as weights

Doubles from zero up are ordered by their magnitudes (`Weighs.le_iff`). A sum rounds, but it rounds to
nothing below its greater part, so adding to a weight never takes away from it (`Weighs.add`), and gains
of weights are weights again (`Weighs.sub`).
-/

namespace Atomspace

open Float.Model (UnpackedFloat Format)
open Float.Model.UnpackedFloat (Sign)

namespace Decimal.Binary

/-! ## Values and what rounds to them -/

theorem covers_zero : (ofMagnitude 0).Covers 0 := by
  rw [ofMagnitude_small (by norm_num)]
  constructor <;> simp [low, high, lowSignificand]

/-- What is no less than a value does not round to less. -/
theorem Covers.le_of_value_le {m n : Nat} {v : ℚ} (h : (ofMagnitude n).Covers v)
    (hm : (ofMagnitude m).value ≤ v) : m ≤ n := by
  by_contra! hlt
  obtain ⟨k, rfl⟩ : ∃ k, m = k + 1 := ⟨m - 1, by omega⟩
  have hlow := low_lt_value (significand_ofMagnitude_pos (Nat.succ_ne_zero k)).ne'
  rw [low_ofMagnitude_succ] at hlow
  have hhigh : (ofMagnitude n).high ≤ (ofMagnitude k).high := high_strictMono.le_iff_le.2 (by omega)
  linarith [h.le_high]

/-- What lies below the midpoint above a value does not round to more. -/
theorem Covers.le_of_lt_high {m n : Nat} {v : ℚ} (h : (ofMagnitude n).Covers v)
    (hm : v < (ofMagnitude m).high) : n ≤ m := by
  by_contra! hlt
  obtain ⟨k, rfl⟩ : ∃ k, n = k + 1 := ⟨n - 1, by omega⟩
  have hhigh : (ofMagnitude m).high ≤ (ofMagnitude k).high := high_strictMono.le_iff_le.2 (by omega)
  have hlow := h.low_le
  rw [low_ofMagnitude_succ] at hlow
  linarith

theorem value_strictMono : StrictMono fun n => (ofMagnitude n).value := by
  intro m n h
  obtain ⟨k, rfl⟩ : ∃ k, n = k + 1 := ⟨n - 1, by omega⟩
  have hlow := low_lt_value (significand_ofMagnitude_pos (Nat.succ_ne_zero k)).ne'
  rw [low_ofMagnitude_succ] at hlow
  have hhigh : (ofMagnitude m).high ≤ (ofMagnitude k).high := high_strictMono.le_iff_le.2 (by omega)
  exact ((value_lt_high _).trans_le hhigh).trans hlow

theorem value_mono {m n : Nat} (h : m ≤ n) : (ofMagnitude m).value ≤ (ofMagnitude n).value :=
  value_strictMono.monotone h

end Decimal.Binary

namespace Double

open Decimal.Binary

/-- The magnitude of one. -/
def unit : Nat := 1023 * 2 ^ 52

theorem value_unit : (ofMagnitude unit).value = 1 := by
  rw [unit, show 1023 * 2 ^ 52 = 1022 * 2 ^ 52 + 2 ^ 52 by norm_num,
    ofMagnitude_grid (by norm_num) (.inl le_rfl), Decimal.Binary.value]
  norm_num

theorem unit_lt_infinite : unit < infinite := by
  decide

/-- All finite values are more than one below the midpoint from which on results are infinite. -/
theorem value_add_one_lt {n : Nat} (hn : n < infinite) :
    (ofMagnitude n).value + 1 < (ofMagnitude (infinite - 1)).high := by
  have hle := value_mono (Nat.le_sub_one_of_lt hn)
  have hparts : ofMagnitude (infinite - 1) = ⟨2 ^ 53 - 1, 971, false⟩ := by
    rw [infinite, show 0x7FF * 2 ^ 52 - 1 = 2045 * 2 ^ 52 + (2 ^ 53 - 1) by norm_num,
      ofMagnitude_grid (by norm_num) (.inl (by norm_num))]
    norm_num
  have hgap : (1 : ℚ) ≤ 2 ^ 969 := one_le_pow₀ (by norm_num)
  have hhigh : (ofMagnitude (infinite - 1)).high = (ofMagnitude (infinite - 1)).value + 2 * 2 ^ 969 := by
    rw [value_eq_scaled, hparts, high, show (971 : Int) - 2 = (969 : Nat) by norm_num, zpow_natCast]
    generalize (2 : ℚ) ^ 969 = gap
    push_cast
    ring
  rw [hhigh]
  generalize (2 : ℚ) ^ 969 = gap at *
  linarith

/-! ## Order -/

/-- A magnitude with a sign as a whole number, in which the two zeros are one. -/
def elevation (s : Sign) (n : Nat) : Int :=
  match s with
  | .negative => -n
  | .positive => n

/-- Values compare like their elevations. -/
theorem compare_elevation {s t : Sign} {m n : Nat} (hm : m ≤ infinite) (hn : n ≤ infinite) :
    (signed s m).compare (signed t n) = some (compare (elevation s m) (elevation t n)) := by
  have hpos : 0 < infinite := by decide
  have hfinite := compare_ofMagnitude m n
  have hint (i j : Int) : compare i j = if i < j then .lt else if i = j then .eq else .gt := rfl
  have hnat (i j : Nat) : compare i j = if i < j then .lt else if i = j then .eq else .gt := rfl
  unfold signed elevation
  -- each side is zero, finite or infinite
  split_ifs <;> (try omega) <;> cases s <;> cases t <;> simp only [UnpackedFloat.compare, hfinite] <;>
    simp only [hint, hnat] <;> split_ifs <;> first | rfl | omega

theorem compare_signed {s t : Sign} {m n : Nat} (hs : s = .positive ∨ m = 0) (ht : t = .positive ∨ n = 0)
    (hm : m ≤ infinite) (hn : n ≤ infinite) : (signed s m).compare (signed t n) = some (compare m n) := by
  have helevation {s : Sign} {m : Nat} (hs : s = .positive ∨ m = 0) : elevation s m = m := by
    rcases hs with rfl | rfl
    · rfl
    · cases s <;> rfl
  rw [compare_elevation hm hn, helevation hs, helevation ht]
  rcases lt_trichotomy m n with h | rfl | h
  · rw [compare_lt_iff_lt.2 h, compare_lt_iff_lt.2 (Int.ofNat_lt.2 h)]
  · rw [compare_eq_iff_eq.2 rfl, compare_eq_iff_eq.2 rfl]
  · rw [compare_gt_iff_gt.2 h, compare_gt_iff_gt.2 (Int.ofNat_lt.2 h)]

/-- The double has a magnitude, and is from zero up. -/
def Weighs (x : Double) (n : Nat) : Prop :=
  n ≤ infinite ∧ ∃ s, (s = .positive ∨ n = 0) ∧ x.value.toModel.unpack = signed s n

variable {x y : Double} {m n : Nat}

theorem weighs_of_toBits (hn : n ≤ infinite) (h : x.value.toBits.toNat = n) : Weighs x n := by
  have hsmall : n < 2 ^ 63 := hn.trans_lt (by decide)
  refine ⟨hn, .positive, .inl rfl, ?_⟩
  show UnpackedFloat.unpack Format.binary64 x.value.toBits.toBitVec = _
  rw [unpack_eq, h, Nat.mod_eq_of_lt hsmall, signOf, if_pos (h ▸ hsmall)]

theorem weighs_zero : Weighs 0 0 :=
  weighs_of_toBits (Nat.zero_le _) (by decide +kernel)

theorem weighs_zero_decimal : Weighs 0.0 0 :=
  weighs_of_toBits (Nat.zero_le _) (by decide +kernel)

theorem weighs_one : Weighs 1 unit :=
  weighs_of_toBits unit_lt_infinite.le (by decide +kernel)

theorem Weighs.compare (hx : Weighs x m) (hy : Weighs y n) :
    x.value.toModel.unpack.compare y.value.toModel.unpack = some (compare m n) := by
  obtain ⟨hm, s, hs, hsx⟩ := hx
  obtain ⟨hn, t, ht, hty⟩ := hy
  rw [hsx, hty]
  exact compare_signed hs ht hm hn

theorem lt_eq (x y : Double) : Scalar.lt x y =
    (x.value.toModel.unpack.compare y.value.toModel.unpack == some .lt) := by
  show decide (x.value < y.value) = _
  rw [Bool.eq_iff_iff, decide_eq_true_iff]
  exact ⟨fun h => of_decide_eq_true h, fun h => decide_eq_true h⟩

/-- The place of a number among the numbers. -/
def level (x : Double) : Int :=
  elevation (signOf x.value.toBits) (x.value.toBits.toNat % 2 ^ 63)

theorem compare_level {x y : Double} (hx : x.value.isNaN = false) (hy : y.value.isNaN = false) :
    x.value.toModel.unpack.compare y.value.toModel.unpack = some (compare x.level y.level) := by
  have hunpack (z : Double) : z.value.toModel.unpack =
      signed (signOf z.value.toBits) (z.value.toBits.toNat % 2 ^ 63) := unpack_eq _
  have hmagnitude {z : Double} (hz : z.value.isNaN = false) : z.value.toBits.toNat % 2 ^ 63 ≤ infinite := by
    by_contra hmore
    change z.value.toModel.unpack.isNaN = false at hz
    rw [hunpack, signed_undefined _ (not_le.1 hmore)] at hz
    cases hz
  rw [hunpack, hunpack, compare_elevation (hmagnitude hx) (hmagnitude hy)]
  rfl

theorem lt_iff_level {x y : Double} (hx : x.value.isNaN = false) (hy : y.value.isNaN = false) :
    Scalar.lt x y = true ↔ x.level < y.level := by
  rw [lt_eq, compare_level hx hy, beq_iff_eq, Option.some_inj, compare_lt_iff_lt]

theorem eq_iff_level {x y : Double} (hx : x.value.isNaN = false) (hy : y.value.isNaN = false) :
    Scalar.eq x y = true ↔ x.level = y.level := by
  show (x.value.toModel.unpack.compare y.value.toModel.unpack == some .eq) = true ↔ _
  rw [compare_level hx hy, beq_iff_eq, Option.some_inj, compare_eq_iff_eq]

theorem le_iff_level {x y : Double} (hx : x.value.isNaN = false) (hy : y.value.isNaN = false) :
    Scalar.le x y = true ↔ x.level ≤ y.level := by
  rw [Scalar.le, Bool.or_eq_true, lt_iff_level hx hy, eq_iff_level hx hy, le_iff_lt_or_eq]

theorem Weighs.lt_iff (hx : Weighs x m) (hy : Weighs y n) : Scalar.lt x y = true ↔ m < n := by
  rw [lt_eq, hx.compare hy, beq_iff_eq, Option.some_inj, compare_lt_iff_lt]

theorem Weighs.le_iff (hx : Weighs x m) (hy : Weighs y n) : Scalar.le x y = true ↔ m ≤ n := by
  have heq : Scalar.eq x y = (x.value.toModel.unpack.compare y.value.toModel.unpack == some .eq) := rfl
  rw [Scalar.le, Bool.or_eq_true, hx.lt_iff hy, heq, hx.compare hy, beq_iff_eq, Option.some_inj,
    compare_eq_iff_eq, le_iff_lt_or_eq]

/-- A double that is at least zero is a number, and its sign is positive unless it is zero. -/
theorem weighs_of_unpack {z : Double} (hz : Weighs z 0) {t : Sign} (hunpack : x.value.toModel.unpack = signed t n)
    (h : Scalar.le z x = true) : Weighs x n := by
  obtain ⟨-, s, -, hzero⟩ := hz
  have hcompare : ((signed s 0).compare (signed t n) == some .lt ||
      (signed s 0).compare (signed t n) == some .eq) = true := by
    rw [← hzero, ← hunpack, ← lt_eq]
    exact h
  rw [signed_zero] at hcompare
  rcases lt_trichotomy n infinite with hn | rfl | hn
  · refine ⟨hn.le, t, ?_, hunpack⟩
    by_contra! hneg
    obtain ⟨hsign, hpos⟩ := hneg
    rw [signed_finite t hpos hn] at hcompare
    cases t with
    | positive => exact hsign rfl
    | negative => cases hcompare
  · refine ⟨le_rfl, t, ?_, hunpack⟩
    rw [signed_infinite] at hcompare
    cases t with
    | positive => exact .inl rfl
    | negative => cases hcompare
  · rw [signed_undefined t hn] at hcompare
    cases hcompare

theorem exists_weighs (h : Scalar.le 0 x = true) : ∃ n, Weighs x n :=
  ⟨_, weighs_of_unpack weighs_zero (unpack_eq _) h⟩

/-! ## Sums and differences -/

/-- Moving the point to the left does not change the number. -/
theorem decreaseExponent_value (m : Nat) {e t : Int} (h : t ≤ e) :
    ((UnpackedFloat.decreaseExponent m e t).1 : ℚ) * 2 ^ t = m * 2 ^ e := by
  obtain ⟨k, rfl⟩ : ∃ k : Nat, e = t + k := ⟨(e - t).toNat, by omega⟩
  unfold UnpackedFloat.decreaseExponent
  simp only
  rw [show (t + (k : Int) - t).toNat = k by omega, Nat.shiftLeft_eq, zpow_add₀ (by norm_num), zpow_natCast]
  push_cast
  ring

/-- A signed number of any length rounds to a value, which is the result unless it is too large. -/
theorem exists_normalize (m : Int) (e : Int) : ∃ s n, (ofMagnitude n).Covers (m.natAbs * 2 ^ e) ∧
    (0 < m → s = .positive) ∧
    (n < infinite → UnpackedFloat.normalize Format.binary64 m e .positive = signed s n) := by
  unfold UnpackedFloat.normalize
  rcases lt_trichotomy m 0 with h | rfl | h
  · rw [compare_lt_iff_lt.2 h]
    obtain ⟨n, hn, hround⟩ := exists_round .negative (m := (-m).toNat) (by omega) e
    refine ⟨.negative, n, ?_, by omega, hround⟩
    rwa [show (-m).toNat = m.natAbs by omega] at hn
  · refine ⟨.positive, 0, ?_, fun _ => rfl, fun _ => rfl⟩
    rw [Int.natAbs_zero, Nat.cast_zero, zero_mul]
    exact covers_zero
  · rw [compare_gt_iff_gt.2 h]
    obtain ⟨n, hn, hround⟩ := exists_round .positive (m := m.toNat) (by omega) e
    refine ⟨.positive, n, ?_, fun _ => rfl, hround⟩
    rwa [show m.toNat = m.natAbs by omega] at hn

/-- The sum of two numbers is the value that the exact sum rounds to. -/
theorem add_of_finite (hm0 : m ≠ 0) (hm : m < infinite) (hn0 : n ≠ 0) (hn : n < infinite) :
    ∃ k, (ofMagnitude k).Covers ((ofMagnitude m).value + (ofMagnitude n).value) ∧ (k < infinite →
      UnpackedFloat.add Format.binary64 (signed .positive m) (signed .positive n) = signed .positive k) := by
  rw [signed_finite _ hm0 hm, signed_finite _ hn0 hn]
  unfold UnpackedFloat.add
  have hpos := significand_ofMagnitude_pos hm0
  have hleft := decreaseExponent_value (ofMagnitude m).significand
    (min_le_left (ofMagnitude m).exponent (ofMagnitude n).exponent)
  have hright := decreaseExponent_value (ofMagnitude n).significand
    (min_le_right (ofMagnitude m).exponent (ofMagnitude n).exponent)
  have hlarge : 0 < (UnpackedFloat.decreaseExponent (ofMagnitude m).significand (ofMagnitude m).exponent
      (min (ofMagnitude m).exponent (ofMagnitude n).exponent)).1 :=
    Nat.pos_of_ne_zero (shiftLeft_ne_zero hpos.ne' _)
  simp only [Sign.apply]
  generalize (UnpackedFloat.decreaseExponent (ofMagnitude m).significand _ _).1 = a at *
  generalize (UnpackedFloat.decreaseExponent (ofMagnitude n).significand _ _).1 = b at *
  obtain ⟨s, k, hk, hs, hround⟩ := exists_normalize ((a : Int) + b)
    (min (ofMagnitude m).exponent (ofMagnitude n).exponent)
  obtain rfl := hs (by omega)
  refine ⟨k, ?_, hround⟩
  rwa [show ((a : Int) + b).natAbs = a + b by omega, Nat.cast_add, add_mul, hleft, hright] at hk

/-- So is the difference, up to a sign. -/
theorem sub_of_finite (hm0 : m ≠ 0) (hm : m < infinite) (hn0 : n ≠ 0) (hn : n < infinite) :
    ∃ s k, (ofMagnitude k).Covers |(ofMagnitude m).value - (ofMagnitude n).value| ∧ (k < infinite →
      UnpackedFloat.sub Format.binary64 (signed .positive m) (signed .positive n) = signed s k) := by
  rw [signed_finite _ hm0 hm, signed_finite _ hn0 hn]
  unfold UnpackedFloat.sub
  have hleft := decreaseExponent_value (ofMagnitude m).significand
    (min_le_left (ofMagnitude m).exponent (ofMagnitude n).exponent)
  have hright := decreaseExponent_value (ofMagnitude n).significand
    (min_le_right (ofMagnitude m).exponent (ofMagnitude n).exponent)
  have hunit : (0 : ℚ) ≤ 2 ^ min (ofMagnitude m).exponent (ofMagnitude n).exponent :=
    (zpow_pos (by norm_num) _).le
  simp only [Sign.apply]
  generalize (UnpackedFloat.decreaseExponent (ofMagnitude m).significand _ _).1 = a at *
  generalize (UnpackedFloat.decreaseExponent (ofMagnitude n).significand _ _).1 = b at *
  obtain ⟨s, k, hk, -, hround⟩ := exists_normalize ((a : Int) - b)
    (min (ofMagnitude m).exponent (ofMagnitude n).exponent)
  refine ⟨s, k, ?_, hround⟩
  have habs : ((((a : Int) - b).natAbs : Nat) : ℚ) = |(a : ℚ) - b| := by
    rw [Nat.cast_natAbs]
    push_cast
    rfl
  rwa [habs, ← abs_of_nonneg hunit, ← abs_mul, sub_mul, hleft, hright] at hk

theorem value_nonneg (x : Decimal.Binary) : 0 ≤ x.value :=
  mul_nonneg (Nat.cast_nonneg _) (zpow_pos (by norm_num) _).le

theorem value_le_one (h : n ≤ unit) : (ofMagnitude n).value ≤ 1 :=
  value_unit ▸ value_mono h

/-- What exceeds a finite value by no more than one does not round to infinity. -/
theorem lt_infinite_of_covers {v : ℚ} (h : (ofMagnitude n).Covers v) (hm : m < infinite)
    (hv : v ≤ (ofMagnitude m).value + 1) : n < infinite := by
  have hle := h.le_of_lt_high (hv.trans_lt (value_add_one_lt hm))
  have hpos : 0 < infinite := by decide
  omega

/-- A weight and anything from zero up add up to no less than the weight. -/
theorem add_signed {s t : Sign} (hs : s = .positive ∨ m = 0) (ht : t = .positive ∨ n = 0)
    (hm : m ≤ unit) (hn : n ≤ infinite) : ∃ r k, (r = .positive ∨ k = 0) ∧ m ≤ k ∧ k ≤ infinite ∧
      UnpackedFloat.add Format.binary64 (signed s m) (signed t n) = signed r k := by
  have hm' := hm.trans_lt unit_lt_infinite
  by_cases hm0 : m = 0 <;> by_cases hn0 : n = 0
  · subst hm0 hn0
    exact ⟨if s == t then s else .positive, 0, .inr rfl, le_rfl, Nat.zero_le _, by cases s <;> cases t <;> rfl⟩
  · obtain rfl := ht.resolve_right hn0
    refine ⟨.positive, n, .inl rfl, hm0 ▸ Nat.zero_le n, hn, ?_⟩
    rw [hm0, signed_zero]
    rcases hn.lt_or_eq with hn | rfl
    · rw [signed_finite _ hn0 hn]
      rfl
    · rw [signed_infinite]
      rfl
  · refine ⟨s, m, hs, le_rfl, hm'.le, ?_⟩
    rw [hn0, signed_finite s hm0 hm', signed_zero]
    rfl
  · obtain rfl := hs.resolve_right hm0
    obtain rfl := ht.resolve_right hn0
    rcases hn.lt_or_eq with hn | rfl
    · obtain ⟨k, hk, hsum⟩ := add_of_finite hm0 hm' hn0 hn
      have hfinite := lt_infinite_of_covers hk hn (by linarith [value_le_one hm])
      exact ⟨.positive, k, .inl rfl, hk.le_of_value_le (by linarith [value_nonneg (ofMagnitude n)]),
        hfinite.le, hsum hfinite⟩
    · refine ⟨.positive, infinite, .inl rfl, hm'.le, le_rfl, ?_⟩
      rw [signed_infinite, signed_finite _ hm0 hm']
      rfl

/-- Weights differ by no more than one. -/
theorem sub_signed {s t : Sign} (hs : s = .positive ∨ m = 0) (ht : t = .positive ∨ n = 0)
    (hm : m ≤ unit) (hn : n ≤ unit) : ∃ r k, k ≤ unit ∧
      UnpackedFloat.sub Format.binary64 (signed s m) (signed t n) = signed r k := by
  have hm' := hm.trans_lt unit_lt_infinite
  have hn' := hn.trans_lt unit_lt_infinite
  by_cases hm0 : m = 0 <;> by_cases hn0 : n = 0
  · subst hm0 hn0
    exact ⟨if s == -t then s else .positive, 0, Nat.zero_le _, by cases s <;> cases t <;> rfl⟩
  · refine ⟨-t, n, hn, ?_⟩
    rw [hm0, signed_zero, signed_finite t hn0 hn', signed_finite _ hn0 hn']
    rfl
  · refine ⟨s, m, hm, ?_⟩
    rw [hn0, signed_finite s hm0 hm', signed_zero]
    rfl
  · obtain rfl := hs.resolve_right hm0
    obtain rfl := ht.resolve_right hn0
    obtain ⟨r, k, hk, hdifference⟩ := sub_of_finite hm0 hm' hn0 hn'
    have hone : |(ofMagnitude m).value - (ofMagnitude n).value| ≤ 1 :=
      abs_sub_le_of_nonneg_of_le (value_nonneg _) (value_le_one hm) (value_nonneg _) (value_le_one hn)
    have hle := hk.le_of_lt_high ((hone.trans_eq value_unit.symm).trans_lt (value_lt_high _))
    exact ⟨r, k, hle, hdifference (hle.trans_lt unit_lt_infinite)⟩

theorem significand_or_exponent (n : Nat) :
    2 ^ 52 ≤ (ofMagnitude n).significand ∨ (ofMagnitude n).exponent = -1074 := by
  unfold ofMagnitude
  split
  · exact .inr rfl
  · exact .inl (Nat.le_add_right _ _)

theorem mul_exponent_le (hm : m ≠ 0) (hn : n ≠ 0) : (ofMagnitude m).exponent + (ofMagnitude n).exponent ≤
    max (((ofMagnitude m).significand * (ofMagnitude n).significand).log2 +
      ((ofMagnitude m).exponent + (ofMagnitude n).exponent) - 52) (-1074) := by
  have hm0 := significand_ofMagnitude_pos hm
  have hn0 := significand_ofMagnitude_pos hn
  have hlog (h : 2 ^ 52 ≤ (ofMagnitude m).significand * (ofMagnitude n).significand) :=
    (Nat.le_log2 (Nat.mul_pos hm0 hn0).ne').2 h
  -- a product of two values of the least exponent lies below them all, and any other has digits enough
  rcases significand_or_exponent m with hm | hm
  · have := hlog (hm.trans (Nat.le_mul_of_pos_right _ hn0))
    omega
  · rcases significand_or_exponent n with hn | hn
    · have := hlog (hn.trans (Nat.le_mul_of_pos_left _ hm0))
      omega
    · omega

/-- A factor of no more than one makes nothing larger. -/
theorem mul_of_finite (hm0 : m ≠ 0) (hm : m ≤ unit) (hn0 : n ≠ 0) (hn : n < infinite) : ∃ k, k ≤ n ∧
    UnpackedFloat.mul Format.binary64 (signed .positive m) (signed .positive n) = signed .positive k := by
  rw [signed_finite _ hm0 (hm.trans_lt unit_lt_infinite), signed_finite _ hn0 hn]
  obtain ⟨k, hk, hround⟩ := exists_roundWithAccuracy .positive (a := .exact) (.exact _) (mul_exponent_le hm0 hn0)
  have hproduct : (((ofMagnitude m).significand * (ofMagnitude n).significand : Nat) : ℚ) *
      2 ^ ((ofMagnitude m).exponent + (ofMagnitude n).exponent) = (ofMagnitude m).value * (ofMagnitude n).value := by
    rw [Decimal.Binary.value, Decimal.Binary.value, zpow_add₀ (by norm_num)]
    push_cast
    ring
  rw [hproduct] at hk
  have hle := mul_le_of_le_one_left (value_nonneg (ofMagnitude n)) (value_le_one hm)
  have hkn := hk.le_of_lt_high (hle.trans_lt (value_lt_high _))
  exact ⟨k, hkn, hround (hkn.trans_lt hn)⟩

/-- A gain times anything from zero up is from zero up. -/
theorem mul_signed {t : Sign} (ht : t = .positive ∨ n = 0) (hm0 : m ≠ 0) (hm : m ≤ unit) (hn : n ≤ infinite) :
    ∃ r k, (r = .positive ∨ k = 0) ∧ k ≤ infinite ∧
      UnpackedFloat.mul Format.binary64 (signed .positive m) (signed t n) = signed r k := by
  have hm' := hm.trans_lt unit_lt_infinite
  by_cases hn0 : n = 0
  · refine ⟨t, 0, .inr rfl, Nat.zero_le _, ?_⟩
    rw [hn0, signed_finite _ hm0 hm', signed_zero]
    cases t <;> rfl
  · obtain rfl := ht.resolve_right hn0
    rcases hn.lt_or_eq with hn | rfl
    · obtain ⟨k, hk, hproduct⟩ := mul_of_finite hm0 hm hn0 hn
      exact ⟨.positive, k, .inl rfl, (hk.trans_lt hn).le, hproduct⟩
    · refine ⟨.positive, infinite, .inl rfl, le_rfl, ?_⟩
      rw [signed_finite _ hm0 hm', signed_infinite]
      rfl

/-! ## Weights -/

theorem isNaN_signed (s : Sign) (hn : n ≤ infinite) : (signed s n).isNaN = false := by
  rcases hn.lt_or_eq with hn | rfl
  · by_cases h0 : n = 0
    · rw [h0]
      rfl
    · rw [signed_finite s h0 hn]
      rfl
  · rw [signed_infinite]
    rfl

/-- Operations on numbers give numbers here. -/
theorem ofOperation_packed (s : Sign) (hn : n ≤ infinite) :
    (ofOperation x y (packed s n)).value.toModel.unpack = signed s n := by
  have hnumber : (packed s n).isNaN = false := by
    show (packed s n).toModel.unpack.isNaN = false
    rw [unpack_packed s hn]
    exact isNaN_signed s hn
  rw [ofOperation, hnumber]
  exact unpack_packed s hn

/-- Adding to a weight does not take from it. -/
theorem Weighs.add (hx : Weighs x m) (hy : Weighs y n) (hm : m ≤ unit) : ∃ k, m ≤ k ∧ Weighs (x + y) k := by
  obtain ⟨-, s, hs, hsx⟩ := hx
  obtain ⟨hn, t, ht, hty⟩ := hy
  obtain ⟨r, k, hr, hmk, hk, hsum⟩ := add_signed hs ht hm hn
  have hpacked : x.value + y.value = packed r k := by
    rw [packed, ← hsum, ← hsx, ← hty]
    rfl
  refine ⟨k, hmk, hk, r, hr, ?_⟩
  rw [← ofOperation_packed r hk, ← hpacked]
  rfl

/-- What a weight gains is a weight. -/
theorem Weighs.sub (hx : Weighs x m) (hy : Weighs y n) (hm : m ≤ unit) (hn : n ≤ unit)
    (hgain : Scalar.lt 0.0 (x - y) = true) : ∃ k, 0 < k ∧ k ≤ unit ∧ Weighs (x - y) k := by
  obtain ⟨-, s, hs, hsx⟩ := hx
  obtain ⟨-, t, ht, hty⟩ := hy
  obtain ⟨r, k, hk, hdifference⟩ := sub_signed hs ht hm hn
  have hpacked : x.value - y.value = packed r k := by
    rw [packed, ← hdifference, ← hsx, ← hty]
    rfl
  -- the sign of a rounded difference is not known, but a negative one is not above zero
  have hunpack : (x - y).value.toModel.unpack = signed r k := by
    rw [← ofOperation_packed r (hk.trans unit_lt_infinite.le), ← hpacked]
    rfl
  have hweighs := weighs_of_unpack weighs_zero_decimal hunpack (Scalar.le_of_lt hgain)
  exact ⟨k, (weighs_zero_decimal.lt_iff hweighs).1 hgain, hk, hweighs⟩

/-- A gain times anything from zero up is from zero up. -/
theorem Weighs.mul (hx : Weighs x m) (hy : Weighs y n) (hm0 : m ≠ 0) (hm : m ≤ unit) :
    ∃ k, Weighs (x * y) k := by
  obtain ⟨-, s, hs, hsx⟩ := hx
  obtain ⟨hn, t, ht, hty⟩ := hy
  obtain rfl := hs.resolve_right hm0
  obtain ⟨r, k, hr, hk, hproduct⟩ := mul_signed ht hm0 hm hn
  have hpacked : x.value * y.value = packed r k := by
    rw [packed, ← hproduct, ← hsx, ← hty]
    rfl
  refine ⟨k, hk, r, hr, ?_⟩
  rw [← ofOperation_packed r hk, ← hpacked]
  rfl

theorem inUnit_iff : Scalar.InUnit x ↔ ∃ n ≤ unit, Weighs x n := by
  constructor
  · rintro ⟨hlow, hhigh⟩
    obtain ⟨n, hx⟩ := exists_weighs hlow
    exact ⟨n, (hx.le_iff weighs_one).1 hhigh, hx⟩
  · rintro ⟨n, hn, hx⟩
    exact ⟨(weighs_zero.le_iff hx).2 (Nat.zero_le n), (hx.le_iff weighs_one).2 hn⟩

theorem Weighs.clampUnit (hx : Weighs x n) : Weighs (Scalar.clampUnit x) (min unit n) := by
  unfold Scalar.clampUnit Scalar.clamp
  rw [if_neg (by simp [hx.lt_iff weighs_zero])]
  split
  · rename_i hlarge
    rw [min_eq_left ((weighs_one.lt_iff hx).1 hlarge).le]
    exact weighs_one
  · rename_i hsmall
    rw [min_eq_right (not_lt.1 (mt (weighs_one.lt_iff hx).2 hsmall))]
    exact hx

instance : Scalar.Accruing Double where
  le_refl := by
    intro x hx
    obtain ⟨n, -, hx⟩ := inUnit_iff.1 hx
    exact (hx.le_iff hx).2 le_rfl
  le_trans := by
    intro x y z hx hy hz hxy hyz
    obtain ⟨l, -, hx⟩ := inUnit_iff.1 hx
    obtain ⟨m, -, hy⟩ := inUnit_iff.1 hy
    obtain ⟨n, -, hz⟩ := inUnit_iff.1 hz
    exact (hx.le_iff hz).2 (((hx.le_iff hy).1 hxy).trans ((hy.le_iff hz).1 hyz))
  clampUnit_add := by
    intro x amount hx hamount
    obtain ⟨m, hm, hx⟩ := inUnit_iff.1 hx
    obtain ⟨n, hn⟩ := exists_weighs hamount
    obtain ⟨k, hmk, hk⟩ := hx.add hn hm
    exact ⟨inUnit_iff.2 ⟨_, min_le_left unit k, hk.clampUnit⟩, (hx.le_iff hk.clampUnit).2 (le_min hm hmk)⟩
  gain_mul := by
    intro x y rate hx hy hgain hrate
    obtain ⟨m, hm, hx⟩ := inUnit_iff.1 hx
    obtain ⟨n, hn, hy⟩ := inUnit_iff.1 hy
    obtain ⟨r, hr⟩ := exists_weighs hrate
    obtain ⟨k, hk0, hk, hdifference⟩ := hy.sub hx hn hm hgain
    obtain ⟨l, hl⟩ := hdifference.mul hr hk0.ne' hk
    exact (weighs_zero.le_iff hl).2 (Nat.zero_le l)

end Double

end Atomspace
