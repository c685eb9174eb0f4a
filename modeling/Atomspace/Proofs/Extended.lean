import Atomspace.Proofs.Forgetting
import Atomspace.Proofs.Weights
/-!
# Extended numbers

Rational numbers together with infinities and an undefined value. Like `Exact` they are never rounded, and they
go by the rules of IEEE 754 where an operand is infinite or undefined, or where zero divides. So they tell what
becomes of such operands, whatever the rounding. A zero has no sign here and divides like the positive one.
-/

namespace Atomspace

/-- A rational number, an infinity or what an undefined operation gives, with a stand-in for the exponential
function. -/
inductive Extended (exp : Rat → Rat)
  | finite (value : Rat)
  | infinity
  | negInfinity
  | nan
deriving DecidableEq

namespace Extended

variable {exp : Rat → Rat}

/-! ## Arithmetic -/

/-- The infinity with the sign of a number; that of zero is undefined. -/
def unbounded (x : Rat) : Extended exp :=
  if x = 0 then nan else if 0 < x then infinity else negInfinity

protected def neg : Extended exp → Extended exp
  | finite x => finite (-x)
  | infinity => negInfinity
  | negInfinity => infinity
  | nan => nan

protected def add : Extended exp → Extended exp → Extended exp
  | finite x, finite y => finite (x + y)
  | nan, _ | _, nan | infinity, negInfinity | negInfinity, infinity => nan
  | infinity, _ | _, infinity => infinity
  | negInfinity, _ | _, negInfinity => negInfinity

protected def mul : Extended exp → Extended exp → Extended exp
  | finite x, finite y => finite (x * y)
  | nan, _ | _, nan => nan
  | finite x, infinity | infinity, finite x => unbounded x
  | finite x, negInfinity | negInfinity, finite x => unbounded (-x)
  | infinity, infinity | negInfinity, negInfinity => infinity
  | infinity, negInfinity | negInfinity, infinity => negInfinity

protected def div : Extended exp → Extended exp → Extended exp
  | finite x, finite y => if y = 0 then unbounded x else finite (x / y)
  | nan, _ | _, nan => nan
  | finite _, _ => finite 0
  | infinity, finite y => if y < 0 then negInfinity else infinity
  | negInfinity, finite y => if y < 0 then infinity else negInfinity
  | infinity, _ | negInfinity, _ => nan

/-! ## Order -/

protected def lt : Extended exp → Extended exp → Bool
  | finite x, finite y => decide (x < y)
  | negInfinity, finite _ | negInfinity, infinity | finite _, infinity => true
  | _, _ => false

protected def eq : Extended exp → Extended exp → Bool
  | finite x, finite y => decide (x = y)
  | infinity, infinity | negInfinity, negInfinity => true
  | _, _ => false

/-- The place in the ranking. What is undefined ranks below everything, as the results of arithmetic do. -/
protected def rank : Extended exp → Int ×ₗ Rat
  | nan => toLex (-2, 0)
  | negInfinity => toLex (-1, 0)
  | finite x => toLex (0, x)
  | infinity => toLex (1, 0)

instance : Scalar (Extended exp) where
  add := Extended.add
  sub x y := x.add y.neg
  mul := Extended.mul
  div := Extended.div
  neg := Extended.neg
  ofInt n := finite n
  ofDecimal d := finite (Exact.ofDecimal d)
  lt := Extended.lt
  eq := Extended.eq
  rankLE x y := decide (x.rank ≤ y.rank)
  isFinite x := match x with
    | finite _ => true
    | _ => false
  exp x := match x with
    | finite x => finite (exp x)
    | infinity => infinity
    | negInfinity => finite 0
    | nan => nan
  epsilon := finite (mkRat 1 (1 <<< 52))
  toSize x := match x with
    | finite x => min x.floor.toNat (UInt64.size - 1)
    | infinity => UInt64.size - 1
    | _ => 0
  key x := match x with
    | finite x => toString x
    | infinity => "inf"
    | negInfinity => "-inf"
    | nan => "NaN"
  text x := match x with
    | finite x => toString x
    | infinity => "inf"
    | negInfinity => "-inf"
    | nan => "NaN"

theorem rankLE_iff {x y : Extended exp} : Scalar.rankLE x y = true ↔ x.rank ≤ y.rank :=
  decide_eq_true_iff

theorem rank_lt_of_lt {x y : Extended exp} (h : Scalar.lt x y = true) : x.rank < y.rank := by
  cases x with
  | finite x =>
    cases y with
    | finite y => exact Prod.Lex.toLex_lt_toLex.2 (.inr ⟨rfl, of_decide_eq_true h⟩)
    | infinity => exact Prod.Lex.toLex_lt_toLex.2 (.inl (by decide : (0 : Int) < 1))
    | _ => cases h
  | negInfinity =>
    cases y with
    | finite y => exact Prod.Lex.toLex_lt_toLex.2 (.inl (by decide : (-1 : Int) < 0))
    | infinity => exact Prod.Lex.toLex_lt_toLex.2 (.inl (by decide))
    | _ => cases h
  | _ => cases h

instance : Ranked (Extended exp) where
  total x y := by
    rw [Bool.or_eq_true, rankLE_iff, rankLE_iff]
    exact le_total x.rank y.rank
  trans x y z hxy hyz := rankLE_iff.2 ((rankLE_iff.1 hxy).trans (rankLE_iff.1 hyz))
  not_lt x y hxy := Bool.eq_false_iff.2 fun h => (rank_lt_of_lt h).not_ge (rankLE_iff.1 hxy)

/-! ## Constants -/

theorem ofDecimal_eq (digits : Nat) (exponent : Int) :
    (Scalar.ofDecimal { digits, exponent } : Extended exp) = finite (digits * 10 ^ exponent) :=
  congrArg finite (one_mul (digits : Rat) ▸ rfl)

theorem zero_eq : (0.0 : Extended exp) = finite 0 :=
  (ofDecimal_eq 0 (-1)).trans (congrArg finite (by norm_num))

theorem half_eq : (0.5 : Extended exp) = finite (1 / 2) :=
  (ofDecimal_eq 5 (-1)).trans (congrArg finite (by norm_num))

theorem one_eq : (1.0 : Extended exp) = finite 1 :=
  (ofDecimal_eq 10 (-1)).trans (congrArg finite (by norm_num))

/-! ## Comparisons -/

variable {x : Extended exp}

theorem isNaN_iff : Scalar.isNaN x = true ↔ x = nan := by
  cases x with
  | finite x =>
    show (!decide (x = x)) = true ↔ _
    simp
  | nan => exact iff_of_true rfl rfl
  | _ => exact iff_of_false Bool.false_ne_true nofun

theorem finite_le_iff {x y : Rat} : Scalar.le (finite x : Extended exp) (finite y) = true ↔ x ≤ y := by
  show (decide (x < y) || decide (x = y)) = true ↔ _
  rw [Bool.or_eq_true, decide_eq_true_iff, decide_eq_true_iff, le_iff_lt_or_eq]

theorem zero_le_iff : Scalar.le 0 x = true ↔ x = infinity ∨ ∃ q, x = finite q ∧ 0 ≤ q := by
  cases x with
  | finite x =>
    refine finite_le_iff.trans ?_
    simp
  | infinity => exact iff_of_true rfl (.inl rfl)
  | _ => exact iff_of_false Bool.false_ne_true (by simp)

theorem inUnit_iff : Scalar.InUnit x ↔ ∃ q, x = finite q ∧ 0 ≤ q ∧ q ≤ 1 := by
  cases x with
  | finite x =>
    refine (and_congr finite_le_iff finite_le_iff).trans ?_
    simp
  | infinity => exact iff_of_false (fun h => Bool.false_ne_true h.2) (by simp)
  | _ => exact iff_of_false (fun h => Bool.false_ne_true h.1) (by simp)

theorem inUnit_clampUnit (hx : x ≠ nan) : Scalar.InUnit (Scalar.clampUnit x) := by
  cases x with
  | finite x =>
    have hclamp : Scalar.clampUnit (finite x : Extended exp) = if x < 0 then finite 0 else if 1 < x then finite 1
        else finite x := by
      show (if decide (x < 0) = true then _ else if decide (1 < x) = true then _ else _) = _
      simp only [decide_eq_true_eq]
      rfl
    rw [inUnit_iff, hclamp]
    split
    · exact ⟨0, rfl, le_rfl, zero_le_one⟩
    · split
      · exact ⟨1, rfl, zero_le_one, le_rfl⟩
      · exact ⟨x, rfl, not_lt.1 ‹_›, not_lt.1 ‹_›⟩
  | infinity => exact inUnit_iff.2 ⟨1, rfl, zero_le_one, le_rfl⟩
  | negInfinity => exact inUnit_iff.2 ⟨0, rfl, le_rfl, zero_le_one⟩
  | nan => exact absurd rfl hx

theorem ne_nan_of_inUnit (hx : Scalar.InUnit x) : x ≠ nan := by
  obtain ⟨q, rfl, -⟩ := inUnit_iff.1 hx
  exact nofun

theorem le_of_lt_eq_false {y : Extended exp} (hx : x ≠ nan) (hy : y ≠ nan) (h : Scalar.lt x y = false) :
    Scalar.le y x = true := by
  cases x with
  | finite x =>
    cases y with
    | finite y => exact finite_le_iff.2 (not_lt.1 (of_decide_eq_false h))
    | negInfinity => rfl
    | infinity => cases h
    | nan => exact absurd rfl hy
  | nan => exact absurd rfl hx
  | _ => cases y <;> first | rfl | exact absurd rfl hy | cases h

/-- The number, or zero where it is below that or undefined. -/
def positivePart : Extended exp → Extended exp
  | finite x => finite (max x 0)
  | infinity => infinity
  | _ => finite 0

theorem max_zero (hx : x ≠ nan) : Scalar.max x 0.0 = x.positivePart := by
  rw [zero_eq]
  cases x with
  | finite x =>
    have hmax : Scalar.max (finite x : Extended exp) (finite 0) = if 0 < x then finite x else finite 0 := by
      show (if decide (0 < x) = true then _ else _) = _
      simp only [decide_eq_true_eq]
    rw [hmax, positivePart]
    split
    · rw [max_eq_left (le_of_lt ‹_›)]
    · rw [max_eq_right (not_lt.1 ‹_›)]
  | nan => exact absurd rfl hx
  | _ => rfl

theorem positivePart_eq_infinity_iff : x.positivePart = infinity ↔ x = infinity := by
  cases x <;> simp [positivePart]

theorem zero_le_positivePart : Scalar.le 0 x.positivePart = true := by
  cases x with
  | finite x => exact finite_le_iff.2 (le_max_right x 0)
  | infinity => rfl
  | _ => exact finite_le_iff.2 le_rfl

/-! ## Infinite operands -/

theorem infinity_of_add {y : Extended exp} (h : x + y = infinity) : x = infinity ∨ y = infinity := by
  cases x with
  | infinity => exact .inl rfl
  | _ =>
    cases y with
    | infinity => exact .inr rfl
    | _ => cases h

theorem finite_of_add {y : Extended exp} {z : Rat} (h : x + y = finite z) :
    (∃ q, x = finite q) ∧ ∃ q, y = finite q := by
  cases x with
  | finite x =>
    cases y with
    | finite y => exact ⟨⟨x, rfl⟩, y, rfl⟩
    | _ => cases h
  | _ => cases y <;> cases h

theorem finite_mul_infinity_ne (y z : Rat) : (finite y : Extended exp) * infinity ≠ finite z := by
  show unbounded y ≠ _
  unfold unbounded
  split_ifs <;> nofun

theorem div_infinity_of_ne (h : ∀ q, x ≠ finite q) : x / infinity = nan := by
  cases x with
  | finite x => exact absurd rfl (h x)
  | _ => rfl

end Extended

end Atomspace
