import Atomspace.Proofs.Doubles
/-!
# Bits of doubles

The bits of a double are a sign and a magnitude. Unpacking gives the value of the magnitude with that
sign (`unpack_eq`), packing goes back (`toNat_pack`), and doubles are ordered by their magnitudes
(`rank_lt_of_lt`).
-/

namespace Atomspace

open Float.Model (UnpackedFloat Format)
open Float.Model.UnpackedFloat (Sign)

namespace Decimal.Binary

theorem significand_ofMagnitude_pos {n : Nat} (h : n ≠ 0) : 0 < (ofMagnitude n).significand := by
  unfold ofMagnitude
  split <;> simp only <;> omega

/-- Values are ordered by their exponents, and by their significands where these agree. -/
theorem ofMagnitude_lex {m n : Nat} (h : m < n) :
    (ofMagnitude m).exponent < (ofMagnitude n).exponent ∨
      (ofMagnitude m).exponent = (ofMagnitude n).exponent ∧
        (ofMagnitude m).significand < (ofMagnitude n).significand := by
  unfold ofMagnitude
  split <;> split
  · exact .inr ⟨rfl, by simp only; omega⟩
  all_goals simp only; omega

theorem compare_ofMagnitude (m n : Nat) :
    (compare (ofMagnitude m).exponent (ofMagnitude n).exponent).then
      (compare (ofMagnitude m).significand (ofMagnitude n).significand) = compare m n := by
  have hlt {k l : Nat} (h : k < l) : (compare (ofMagnitude k).exponent (ofMagnitude l).exponent).then
      (compare (ofMagnitude k).significand (ofMagnitude l).significand) = .lt := by
    rcases ofMagnitude_lex h with he | ⟨he, hs⟩
    · rw [compare_lt_iff_lt.2 he]
      rfl
    · rw [compare_eq_iff_eq.2 he, compare_lt_iff_lt.2 hs]
      rfl
  rcases lt_trichotomy m n with h | rfl | h
  · rw [hlt h, compare_lt_iff_lt.2 h]
  · simp
  · have hswap := congrArg Ordering.swap (hlt h)
    rw [Ordering.swap_then, ← @Std.OrientedCmp.eq_swap Int compare,
      ← @Std.OrientedCmp.eq_swap Nat compare] at hswap
    rw [hswap, compare_gt_iff_gt.2 h]
    rfl

end Decimal.Binary

namespace Double

open Decimal.Binary

/-- The magnitude of the infinite values. What lies above it is not a number. -/
def infinite : Nat := 0x7FF * 2 ^ 52

/-- The value of a magnitude with a sign. -/
def signed (s : Sign) (n : Nat) : UnpackedFloat :=
  if infinite < n then .notANumber
  else if n = infinite then .infinity s
  else if h : n = 0 then .zero s
  else .finite s (ofMagnitude n).significand (ofMagnitude n).exponent (significand_ofMagnitude_pos h)

theorem signed_undefined (s : Sign) {n : Nat} (h : infinite < n) : signed s n = .notANumber :=
  if_pos h

theorem signed_infinite (s : Sign) : signed s infinite = .infinity s := by
  rw [signed, if_neg (lt_irrefl _), if_pos rfl]

theorem signed_zero (s : Sign) : signed s 0 = .zero s :=
  rfl

theorem signed_finite (s : Sign) {n : Nat} (h0 : n ≠ 0) (h : n < infinite) : signed s n =
    .finite s (ofMagnitude n).significand (ofMagnitude n).exponent (significand_ofMagnitude_pos h0) := by
  rw [signed, if_neg h.not_gt, if_neg h.ne, dif_neg h0]

/-- The sign of the bits of a double. -/
def signOf (b : UInt64) : Sign :=
  if b.toNat < 2 ^ 63 then .positive else .negative

theorem signOf_of_toNat {b : UInt64} {s : Sign} {n : Nat} (h : b.toNat = s.toBitVec.toNat * 2 ^ 63 + n)
    (hn : n < 2 ^ 63) : signOf b = s := by
  unfold signOf
  rw [h]
  cases s
  · exact if_neg (by simp [Sign.toBitVec])
  · exact if_pos (by simpa [Sign.toBitVec] using hn)

/-! ## Unpacking -/

theorem toNat_unpackExponent (b : UInt64) :
    (@UnpackedFloat.unpackExponent Format.binary64 b.toBitVec).toNat =
      b.toNat % 2 ^ 63 / 2 ^ 52 := by
  unfold UnpackedFloat.unpackExponent
  simp [BitVec.extractLsb, BitVec.extractLsb'_toNat, Nat.shiftRight_eq_div_pow]
  omega

theorem toNat_unpackMantissa (b : UInt64) :
    (@UnpackedFloat.unpackMantissa Format.binary64 b.toBitVec).toNat =
      b.toNat % 2 ^ 63 % 2 ^ 52 := by
  unfold UnpackedFloat.unpackMantissa
  simp [BitVec.extractLsb, BitVec.extractLsb'_toNat, Nat.shiftRight_eq_div_pow]

theorem unpackSign_eq (b : UInt64) :
    Sign.ofBitVec (@UnpackedFloat.unpackSign Format.binary64 b.toBitVec) = signOf b := by
  have hlt := b.toNat_lt
  have h : (@UnpackedFloat.unpackSign Format.binary64 b.toBitVec).toNat = b.toNat / 2 ^ 63 := by
    unfold UnpackedFloat.unpackSign
    simp [BitVec.extractLsb, BitVec.extractLsb'_toNat, Nat.shiftRight_eq_div_pow]
    omega
  unfold Sign.ofBitVec signOf
  simp only [← BitVec.toNat_inj, h]
  congr 1
  simp

theorem unpack_eq (b : UInt64) :
    UnpackedFloat.unpack Format.binary64 b.toBitVec = signed (signOf b) (b.toNat % 2 ^ 63) := by
  have he := toNat_unpackExponent b
  have hm := toNat_unpackMantissa b
  have hlt : b.toNat % 2 ^ 63 < 2 ^ 63 := Nat.mod_lt _ (by norm_num)
  generalize b.toNat % 2 ^ 63 = n at he hm hlt
  have hones : (-1#11 : BitVec 11).toNat = 2047 := rfl
  have hnormal : (1#1 ++ @UnpackedFloat.unpackMantissa Format.binary64 b.toBitVec).toNat =
      2 ^ 52 + n % 2 ^ 52 := by
    rw [BitVec.toNat_append, hm, ← Nat.shiftLeft_add_eq_or_of_lt (Nat.mod_lt _ (by norm_num))]
    rfl
  have hbias : (Format.binary64.exponentBias : Int) = 1023 := rfl
  unfold UnpackedFloat.unpack
  simp only [unpackSign_eq, ← BitVec.toNat_inj, he, hm, hones, hnormal, BitVec.toNat_ofNat,
    Nat.zero_mod]
  by_cases hspecial : n / 2 ^ 52 = 2047
  · rw [if_pos hspecial]
    by_cases hzero : n % 2 ^ 52 = 0
    · rw [if_pos hzero, ← signed_infinite]
      congr 1
      unfold infinite
      omega
    · rw [if_neg hzero, signed_undefined]
      unfold infinite
      omega
  · have hfinite : n < infinite := by
      unfold infinite
      omega
    rw [if_neg hspecial]
    by_cases hsmall : n / 2 ^ 52 = 0
    · rw [if_pos hsmall]
      by_cases hzero : n % 2 ^ 52 = 0
      · obtain rfl : n = 0 := by omega
        exact (signed_zero _).symm
      · rw [dif_neg hzero, signed_finite _ (by omega) hfinite]
        simp only [UnpackedFloat.finite.injEq, true_and, ofMagnitude, hsmall, hbias]
        norm_num
    · rw [if_neg hsmall, signed_finite _ (by omega) hfinite]
      simp only [UnpackedFloat.finite.injEq, true_and, ofMagnitude, if_neg hsmall, hbias]
      omega

/-! ## Packing -/

/-- The bits of a value are its sign and its magnitude. -/
theorem toNat_pack (s : Sign) {n : Nat} (hn : n ≤ infinite) :
    (UnpackedFloat.pack Format.binary64 (signed s n)).toNat = s.toBitVec.toNat * 2 ^ 63 + n := by
  have hbit : s.toBitVec.toNat < 2 := s.toBitVec.isLt
  have hsmall : n < 2 ^ 63 := hn.trans_lt (by decide)
  obtain ⟨b, hb⟩ : ∃ b : UInt64, b.toNat = s.toBitVec.toNat * 2 ^ 63 + n :=
    ⟨.ofNat (s.toBitVec.toNat * 2 ^ 63 + n), by rw [UInt64.toNat_ofNat', Nat.mod_eq_of_lt (by omega)]⟩
  have hmagnitude : b.toNat % 2 ^ 63 = n := by omega
  have hnumber : @UnpackedFloat.isNaNBits Format.binary64 b.toBitVec = false := by
    have he := toNat_unpackExponent b
    have hm := toNat_unpackMantissa b
    rw [hmagnitude] at he hm
    have hones : (-1#11 : BitVec 11).toNat = 2047 := rfl
    unfold infinite at hn
    simp only [UnpackedFloat.isNaNBits, decide_eq_false_iff_not, ne_eq, ← BitVec.toNat_inj, he, hm,
      hones, BitVec.toNat_ofNat, Nat.zero_mod]
    omega
  have hpack := @UnpackedFloat.pack_unpack Format.binary64 b.toBitVec (by decide)
  rw [unpack_eq, signOf_of_toNat hb hsmall, hmagnitude, hnumber, if_neg Bool.false_ne_true] at hpack
  rw [hpack, ← hb]
  rfl

/-! ## Order -/

/-- The position of a magnitude with a sign in the total order. -/
def position (s : Sign) (n : Nat) : Int :=
  match s with
  | .negative => -1 - (n : Int)
  | .positive => n

theorem position_lt_of_lt {s t : Sign} {m n : Nat} (h : (signed s m).lt (signed t n) = true) :
    position s m < position t n := by
  have hpos : 0 < infinite := by decide
  have hfinite := compare_ofMagnitude m n
  unfold UnpackedFloat.lt at h
  rw [beq_iff_eq] at h
  unfold signed at h
  unfold position
  split_ifs at h <;> cases s <;> cases t <;> simp [UnpackedFloat.compare] at h ⊢
  -- two numbers of one sign are left where the order is that of the magnitudes
  any_goals rw [hfinite] at h
  any_goals simp only [compare_gt_iff_gt, compare_lt_iff_lt] at h
  all_goals omega

theorem isNaN_eq_false_of_lt {u v : UnpackedFloat} (h : u.lt v = true) :
    u.isNaN = false ∧ v.isNaN = false := by
  cases u <;> cases v <;> first | exact ⟨rfl, rfl⟩ | (simp [UnpackedFloat.lt, UnpackedFloat.compare] at h)

theorem rank_eq_position {x : Double} (hx : x.value.isNaN = false) :
    x.rank = position (signOf x.value.toBits) (x.value.toBits.toNat % 2 ^ 63) := by
  have hmagnitude : (x.value.toBits &&& 0x7FFFFFFFFFFFFFFF).toNat = x.value.toBits.toNat % 2 ^ 63 := by
    rw [UInt64.toNat_and, show (0x7FFFFFFFFFFFFFFF : UInt64).toNat = 2 ^ 63 - 1 from rfl,
      Nat.and_two_pow_sub_one_eq_mod]
  have hneg := isNegative_iff hx
  unfold rank signOf position
  rw [hmagnitude]
  by_cases hsmall : x.value.toBits.toNat < 2 ^ 63
  · rw [if_pos hsmall, if_neg (by rw [hneg]; omega)]
  · rw [if_neg hsmall, if_pos (by rw [hneg]; omega)]

/-- What is less ranks lower. -/
theorem rank_lt_of_lt {x y : Double} (h : x.value < y.value) : x.rank < y.rank := by
  have hlt : (UnpackedFloat.unpack Format.binary64 x.value.toBits.toBitVec).lt
      (UnpackedFloat.unpack Format.binary64 y.value.toBits.toBitVec) = true :=
    of_decide_eq_true h
  obtain ⟨hx, hy⟩ := isNaN_eq_false_of_lt hlt
  rw [rank_eq_position hx, rank_eq_position hy]
  rw [unpack_eq, unpack_eq] at hlt
  exact position_lt_of_lt hlt

end Double

end Atomspace
