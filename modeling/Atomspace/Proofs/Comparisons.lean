import Atomspace.Native.Registry
import Atomspace.Proofs.Legible
import Atomspace.Proofs.Magnitudes
/-!
# Comparisons of whole numbers

The standard comparisons read whole numbers as doubles first, so they compare what the numbers round to
(`compares_rounded`). Rounding keeps the order or makes neighbours equal: the answers are those of the
integers just when the two are equal or round to different values (`compares_iff`). That covers all
integers of up to 53 bits.
-/

namespace Atomspace

open Float.Model (UnpackedFloat Format)
open Float.Model.UnpackedFloat (Sign)

/-- What is greater does not round to less. -/
theorem Decimal.Binary.Covers.mono {m n : Nat} {v w : ℚ} (hv : (ofMagnitude m).Covers v)
    (hw : (ofMagnitude n).Covers w) (h : v ≤ w) : m ≤ n := by
  rcases h.lt_or_eq with h | rfl
  · by_contra! hlt
    obtain ⟨k, rfl⟩ : ∃ k, m = k + 1 := ⟨m - 1, by omega⟩
    have hhigh : (ofMagnitude n).high ≤ (ofMagnitude k).high := high_strictMono.le_iff_le.2 (by omega)
    have hlow := hv.low_le
    rw [low_ofMagnitude_succ] at hlow
    linarith [hw.le_high]
  · exact (hv.unique hw).le

namespace Double

open Decimal.Binary

/-! ## Signed values -/

/-- The number that a sign and a magnitude stand for. -/
def worth (s : Sign) (n : Nat) : ℚ :=
  match s with
  | .positive => (ofMagnitude n).value
  | .negative => -(ofMagnitude n).value

theorem value_zero : (ofMagnitude 0).value = 0 := by
  rw [ofMagnitude_small (by norm_num), Decimal.Binary.value]
  simp

theorem worth_zero (s : Sign) : worth s 0 = 0 := by
  cases s <;> simp [worth, value_zero]

theorem value_pos {n : Nat} (h : n ≠ 0) : 0 < (ofMagnitude n).value :=
  value_zero ▸ value_strictMono (Nat.pos_of_ne_zero h)

theorem compare_value (m n : Nat) : compare (ofMagnitude m).value (ofMagnitude n).value = compare m n := by
  rw [← cmp_eq_compare, ← cmp_eq_compare]
  exact value_strictMono.cmp_map_eq m n

theorem compare_neg (x y : ℚ) : compare (-x) (-y) = (compare x y).swap := by
  rcases lt_trichotomy x y with h | rfl | h
  · rw [compare_lt_iff_lt.2 h, compare_gt_iff_gt.2 (neg_lt_neg h)]
    rfl
  · rw [compare_eq_iff_eq.2 rfl, compare_eq_iff_eq.2 rfl]
    rfl
  · rw [compare_gt_iff_gt.2 h, compare_lt_iff_lt.2 (neg_lt_neg h)]
    rfl

/-- Finite doubles are compared by their values. -/
theorem compare_worth {s t : Sign} {m n : Nat} (hm : m < infinite) (hn : n < infinite) :
    (signed s m).compare (signed t n) = some (compare (worth s m) (worth t n)) := by
  by_cases hm0 : m = 0 <;> by_cases hn0 : n = 0
  · rw [hm0, hn0, signed_zero, signed_zero, worth_zero, worth_zero, compare_eq_iff_eq.2 rfl]
    rfl
  · rw [hm0, signed_zero, signed_finite t hn0 hn, worth_zero]
    have := value_pos hn0
    cases t with
    | positive =>
      rw [worth, compare_lt_iff_lt.2 this]
      rfl
    | negative =>
      rw [worth, compare_gt_iff_gt.2 (neg_lt_zero.2 this)]
      rfl
  · rw [hn0, signed_zero, signed_finite s hm0 hm, worth_zero]
    have := value_pos hm0
    cases s with
    | positive =>
      rw [worth, compare_gt_iff_gt.2 this]
      rfl
    | negative =>
      rw [worth, compare_lt_iff_lt.2 (neg_lt_zero.2 this)]
      rfl
  · have hm' := value_pos hm0
    have hn' := value_pos hn0
    rw [signed_finite s hm0 hm, signed_finite t hn0 hn]
    have hcompare := compare_value m n
    rw [← compare_ofMagnitude] at hcompare
    cases s <;> cases t
    case positive.positive =>
      rw [worth, worth, hcompare]
      rfl
    case negative.negative =>
      rw [worth, worth, compare_neg, hcompare]
      rfl
    case positive.negative =>
      rw [worth, worth, compare_gt_iff_gt.2 (by linarith)]
      rfl
    case negative.positive =>
      rw [worth, worth, compare_lt_iff_lt.2 (by linarith)]
      rfl

/-! ## Whole numbers as doubles -/

/-- The value that an integer rounds to: to nearest, and of two to the even one. -/
def Rounded (n : Int) (x : ℚ) : Prop :=
  ∃ k, (ofMagnitude k).Covers |(n : ℚ)| ∧ x = n.sign * (ofMagnitude k).value

theorem Rounded.unique {n : Int} {x y : ℚ} (hx : Rounded n x) (hy : Rounded n y) : x = y := by
  obtain ⟨k, hk, rfl⟩ := hx
  obtain ⟨l, hl, rfl⟩ := hy
  rw [hk.unique hl]

theorem Rounded.neg {n : Int} {x : ℚ} (h : Rounded n x) : Rounded (-n) (-x) := by
  obtain ⟨k, hk, rfl⟩ := h
  refine ⟨k, ?_, ?_⟩
  · rwa [Int.cast_neg, abs_neg]
  · rw [Int.sign_neg, Int.cast_neg, neg_mul]

theorem Rounded.exists_value {n : Int} {x : ℚ} (h : Rounded n x) (hn : 0 ≤ n) :
    ∃ k, (ofMagnitude k).Covers n ∧ x = (ofMagnitude k).value := by
  obtain ⟨k, hk, rfl⟩ := h
  have hcast : (0 : ℚ) ≤ n := by exact_mod_cast hn
  rw [abs_of_nonneg hcast] at hk
  refine ⟨k, hk, ?_⟩
  rcases hn.lt_or_eq with hpos | rfl
  · rw [Int.sign_eq_one_of_pos hpos, Int.cast_one, one_mul]
  · obtain rfl := hk.unique (by simpa using covers_zero)
    rw [value_zero, mul_zero]

/-- Rounding keeps the order, but for what it makes equal. -/
theorem rounded_mono {a b : Int} {x y : ℚ} (hx : Rounded a x) (hy : Rounded b y) (h : a ≤ b) : x ≤ y := by
  have nonneg {n : Int} {z : ℚ} (hz : Rounded n z) (hn : 0 ≤ n) : 0 ≤ z := by
    obtain ⟨k, -, rfl⟩ := hz.exists_value hn
    exact value_nonneg _
  have mono {a b : Int} {x y : ℚ} (hx : Rounded a x) (hy : Rounded b y) (ha : 0 ≤ a) (h : a ≤ b) : x ≤ y := by
    obtain ⟨k, hk, rfl⟩ := hx.exists_value ha
    obtain ⟨l, hl, rfl⟩ := hy.exists_value (ha.trans h)
    exact value_mono (hk.mono hl (by exact_mod_cast h))
  rcases le_total 0 a with ha | ha
  · exact mono hx hy ha h
  · rcases le_total 0 b with hb | hb
    · have hneg := nonneg hx.neg (by omega)
      have hpos := nonneg hy hb
      linarith
    · have hneg := mono hy.neg hx.neg (by omega) (by omega)
      linarith

theorem exists_value_eq {m : Nat} (hm0 : m ≠ 0) (hm : m ≤ 2 ^ 53) :
    ∃ k, (ofMagnitude k).significand ≠ 0 ∧ (ofMagnitude k).value = m := by
  rcases hm.lt_or_eq with hm | rfl
  · obtain ⟨k, -, -, hlarge, hvalue⟩ := represents_toFloat hm0 hm
    exact ⟨k, by omega, hvalue⟩
  · have hparts := ofMagnitude_grid (q := 1075) (r := 2 ^ 52) (by norm_num) (.inl le_rfl)
    refine ⟨1075 * 2 ^ 52 + 2 ^ 52, by rw [hparts]; norm_num, ?_⟩
    rw [hparts, Decimal.Binary.value]
    norm_num

/-- Integers of up to 53 bits are values themselves. -/
theorem Rounded.eq_of_small {n : Int} {x : ℚ} (h : Rounded n x) (hn : n.natAbs ≤ 2 ^ 53) : x = n := by
  obtain ⟨k, hk, rfl⟩ := h
  rcases eq_or_ne n 0 with rfl | hn0
  · simp
  obtain ⟨l, hl, hvalue⟩ := exists_value_eq (Int.natAbs_ne_zero.2 hn0) hn
  have hcovers := covers_value hl
  rw [hvalue, Nat.cast_natAbs, Int.cast_abs] at hcovers
  rw [hk.unique hcovers, hvalue, ← Int.cast_natCast, ← Int.cast_mul, Int.sign_mul_natAbs]

/-- Integers of 64 bits round to finite values. -/
theorem lt_infinite_of_whole {m k : Nat} (hm : m ≤ 2 ^ 63) (h : (ofMagnitude k).Covers m) : k < infinite := by
  have hparts := ofMagnitude_grid (q := 1085) (r := 2 ^ 52) (by norm_num) (.inl le_rfl)
  have hvalue : (ofMagnitude (1085 * 2 ^ 52 + 2 ^ 52)).value = 2 ^ 63 := by
    rw [hparts, Decimal.Binary.value]
    norm_num
  have hle : (m : ℚ) ≤ (ofMagnitude (1085 * 2 ^ 52 + 2 ^ 52)).value := by
    rw [hvalue]
    exact_mod_cast hm
  have hk := h.le_of_lt_high (hle.trans_lt (value_lt_high _))
  exact hk.trans_lt (by decide)

theorem ofNat_eq_packed {m k : Nat} (hm : m ≠ 0) (hk : k < infinite) (h : (ofMagnitude k).Covers m) :
    Float.ofNat m = packed .positive k :=
  floatOfScientific_eq hm false 0 hk (by simpa using h)

/-- An integer of 64 bits is read as the value it rounds to. -/
theorem exists_ofInt (n : Int) (hn : n.natAbs ≤ 2 ^ 63) : ∃ s k, k < infinite ∧
    Rounded n (worth s k) ∧ (Scalar.ofInt n : Double).value.toModel.unpack = signed s k := by
  rcases lt_trichotomy n 0 with h | rfl | h
  · obtain ⟨m, rfl⟩ : ∃ m, n = Int.negSucc m := Int.eq_negSucc_of_lt_zero h
    obtain ⟨k, hk, -⟩ := exists_round .positive (Nat.succ_ne_zero m) 0
    rw [zpow_zero, mul_one] at hk
    have hfinite := lt_infinite_of_whole hn hk
    refine ⟨.negative, k, hfinite, ⟨k, ?_, ?_⟩, ?_⟩
    · rw [Int.cast_negSucc, abs_neg, Nat.abs_cast]
      exact hk
    · simp [worth]
    · show (-Float.ofNat (m + 1)).toModel.unpack = _
      rw [ofNat_eq_packed (Nat.succ_ne_zero m) hfinite hk, neg_packed _ hfinite, unpack_packed _ hfinite.le]
      rfl
  · obtain ⟨-, s, -, hzero⟩ := weighs_zero
    exact ⟨s, 0, by decide, ⟨0, by simpa using covers_zero, by simp [worth_zero]⟩, hzero⟩
  · obtain ⟨m, rfl⟩ : ∃ m : Nat, n = m := ⟨n.toNat, by omega⟩
    obtain ⟨k, hk, -⟩ := exists_round .positive (m := m) (by omega) 0
    rw [zpow_zero, mul_one] at hk
    have hfinite := lt_infinite_of_whole hn hk
    refine ⟨.positive, k, hfinite, ⟨k, by simpa using hk, ?_⟩, ?_⟩
    · simp [worth, Int.sign_eq_one_of_pos h]
    · show (Float.ofNat m).toModel.unpack = _
      rw [ofNat_eq_packed (by omega) hfinite hk, unpack_packed _ hfinite.le]

section
variable {x y : Double} {s t : Sign} {m n : Nat}

theorem lt_of_unpack (hm : m < infinite) (hn : n < infinite) (hx : x.value.toModel.unpack = signed s m)
    (hy : y.value.toModel.unpack = signed t n) : Scalar.lt x y = (compare (worth s m) (worth t n) == .lt) := by
  rw [lt_eq, hx, hy, compare_worth hm hn]
  rfl

theorem eq_of_unpack (hm : m < infinite) (hn : n < infinite) (hx : x.value.toModel.unpack = signed s m)
    (hy : y.value.toModel.unpack = signed t n) : Scalar.eq x y = (compare (worth s m) (worth t n) == .eq) := by
  show (x.value.toModel.unpack.compare y.value.toModel.unpack == some .eq) = _
  rw [hx, hy, compare_worth hm hn]
  rfl

end

end Double

/-! ## The standard comparisons -/

namespace Native

open Double

/-- The standard code of the name answers to two whole numbers with a truth value. -/
def Answers (name : String) (a b : Int64) (truth : Bool) : Prop :=
  ∃ f : Native Double, Registry.standard.resolve? (.symbol name) = some (name, f) ∧
    ∀ s, f [.int a, .int b] s = (.ok (truthAtom truth), s)

/-- The standard comparisons answer to two whole numbers as if they stood in an order. -/
structure Compares (a b : Int64) (o : Ordering) : Prop where
  lt : Answers "<" a b (o == .lt)
  gt : Answers ">" a b (o == .gt)
  le : Answers "<=" a b (o != .gt)
  ge : Answers ">=" a b (o != .lt)
  eq : Answers "==" a b (o == .eq)

theorem Answers.unique {name : String} {a b : Int64} {t u : Bool} (ht : Answers name a b t)
    (hu : Answers name a b u) : t = u := by
  obtain ⟨f, hf, ht⟩ := ht
  obtain ⟨g, hg, hu⟩ := hu
  obtain rfl : f = g := by simpa [hf] using hg
  have heq := congrArg Prod.fst ((ht default).symm.trans (hu default))
  cases t <;> cases u <;> first | rfl | simp [truthAtom] at heq

theorem natAbs_le (a : Int64) : a.toInt.natAbs ≤ 2 ^ 63 := by
  have hlow : -2 ^ 63 ≤ a.toInt := a.minValue_le_toInt
  have hhigh : a.toInt ≤ 2 ^ 63 - 1 := a.toInt_le
  omega

/-- The numbers are read as doubles before they are compared. -/
theorem answers_read (a b : Int64) : let x : Double := Scalar.ofInt a.toInt
    let y : Double := Scalar.ofInt b.toInt
    Answers "<" a b (Scalar.lt x y) ∧ Answers ">" a b (Scalar.lt y x) ∧ Answers "<=" a b (Scalar.le x y) ∧
      Answers ">=" a b (Scalar.le y x) ∧ Answers "==" a b (Scalar.eq x y) :=
  ⟨⟨_, rfl, fun _ => rfl⟩, ⟨_, rfl, fun _ => rfl⟩, ⟨_, rfl, fun _ => rfl⟩, ⟨_, rfl, fun _ => rfl⟩,
    ⟨_, rfl, fun _ => rfl⟩⟩

/-- The comparisons answer by the order of the values that the numbers round to. -/
theorem compares_rounded (a b : Int64) : ∃ x y : ℚ, Rounded a.toInt x ∧ Rounded b.toInt y ∧
    Compares a b (compare x y) := by
  obtain ⟨s, m, hm, hx, hsx⟩ := exists_ofInt a.toInt (natAbs_le a)
  obtain ⟨t, n, hn, hy, hty⟩ := exists_ofInt b.toInt (natAbs_le b)
  obtain ⟨hlt, hgt, hle, hge, heq⟩ := answers_read a b
  have hswap : compare (worth t n) (worth s m) = (compare (worth s m) (worth t n)).swap :=
    Std.OrientedCmp.eq_swap
  simp only [Scalar.le, lt_of_unpack hm hn hsx hty, lt_of_unpack hn hm hty hsx, eq_of_unpack hm hn hsx hty,
    eq_of_unpack hn hm hty hsx, hswap] at hlt hgt hle hge heq
  refine ⟨_, _, hx, hy, ?_⟩
  generalize compare (worth s m) (worth t n) = o at *
  constructor
  case lt => exact hlt
  case gt => cases o <;> exact hgt
  case le => cases o <;> exact hle
  case ge => cases o <;> exact hge
  case eq => exact heq

/-- The atoms of two whole numbers are equal just when the numbers are. -/
theorem int_beq_int {ν : Type} [Scalar ν] (a b : Int64) :
    ((.int a : Atom ν) == .int b) = (compare a.toInt b.toInt == .eq) := by
  rw [Bool.eq_iff_iff, Atom.beq_iff, beq_iff_eq, compare_eq_iff_eq, Int64.toInt_inj]
  constructor
  · rintro ⟨-, hkey⟩
    have hdigits := congrArg String.toList hkey
    rw [Atom.key, Atom.key, String.toList_append, String.toList_append, List.append_cancel_left_eq] at hdigits
    have hread := Reader.int?_toString a
    rw [hdigits, Reader.int?_toString] at hread
    exact (Option.some.inj hread).symm
  · rintro rfl
    exact ⟨rfl, rfl⟩

theorem compare_eq_of_ne {a b : Int64} {x y : ℚ} (hx : Rounded a.toInt x) (hy : Rounded b.toInt y)
    (h : x ≠ y) : compare x y = compare a.toInt b.toInt := by
  rcases lt_trichotomy a.toInt b.toInt with hlt | heq | hgt
  · have hle := rounded_mono hx hy hlt.le
    rw [compare_lt_iff_lt.2 hlt, compare_lt_iff_lt.2 (hle.lt_of_ne h)]
  · exact absurd (hx.unique (heq ▸ hy)) h
  · have hle := rounded_mono hy hx hgt.le
    rw [compare_gt_iff_gt.2 hgt, compare_gt_iff_gt.2 (hle.lt_of_ne h.symm)]

/-- The comparisons answer by the order of what the numbers round to. That is their own order just when
they are equal or round to different values, as they do if they have no more than 53 bits. -/
theorem compares_iff (a b : Int64) : ∃ x y : ℚ, Rounded a.toInt x ∧ Rounded b.toInt y ∧
    Compares a b (compare x y) ∧
    (Compares a b (compare a.toInt b.toInt) ↔ a = b ∨ x ≠ y) ∧
    (Answers "==" a b ((.int a : Atom Double) == .int b) ↔ a = b ∨ x ≠ y) ∧
    (a.toInt.natAbs ≤ 2 ^ 53 → b.toInt.natAbs ≤ 2 ^ 53 → Compares a b (compare a.toInt b.toInt)) := by
  obtain ⟨x, y, hx, hy, hcompares⟩ := compares_rounded a b
  have hexact (h : a = b ∨ x ≠ y) : Compares a b (compare a.toInt b.toInt) := by
    rcases h with rfl | h
    · rw [hx.unique hy, compare_eq_iff_eq.2 rfl] at hcompares
      rwa [compare_eq_iff_eq.2 rfl]
    · rwa [compare_eq_of_ne hx hy h] at hcompares
  -- where both round to one value, equality is answered
  have hequal (h : Answers "==" a b (compare a.toInt b.toInt == .eq)) : a = b ∨ x ≠ y := by
    by_cases hxy : x = y
    · have heq := h.unique hcompares.eq
      rw [compare_eq_iff_eq.2 hxy, beq_iff_eq.2 rfl, beq_iff_eq, compare_eq_iff_eq, Int64.toInt_inj] at heq
      exact .inl heq
    · exact .inr hxy
  rw [int_beq_int]
  refine ⟨x, y, hx, hy, hcompares, ⟨fun h => hequal h.eq, hexact⟩, ⟨hequal, fun h => (hexact h).eq⟩, ?_⟩
  intro ha hb
  apply hexact
  rw [hx.eq_of_small ha, hy.eq_of_small hb, Ne, Int.cast_inj, Int64.toInt_inj]
  exact Classical.em _

/-- The numbers 9007199254740992 and 9007199254740993 are told apart by their atoms, but they round to
one value. -/
theorem compares_neighbours : ¬ ∀ a b : Int64, Compares a b (compare a.toInt b.toInt) := by
  intro h
  have heq := (h 9007199254740992 9007199254740993).eq
  have hequal : Scalar.eq (Scalar.ofInt (9007199254740992 : Int64).toInt : Double)
    (Scalar.ofInt (9007199254740993 : Int64).toInt) = true := by decide +kernel
  obtain ⟨-, -, -, -, htrue⟩ := answers_read 9007199254740992 9007199254740993
  rw [hequal] at htrue
  cases heq.unique htrue

end Native

end Atomspace
