import Atomspace.Proofs.Rounding
/-!
# Keys of doubles

No decimal is read as an undefined number (`isNaN_ofDecimal`). The key of a finite number reads as
a decimal that rounds to it (`exists_decimal_key`), so finite numbers are told apart by their keys
(`value_eq_of_key`).
-/

namespace Atomspace.Double

open Float.Model (UnpackedFloat Format)
open Decimal (Binary)

/-! ## Numbers that are read -/

theorem isNaN_roundWithAccuracy (f : Format) (s : UnpackedFloat.Sign) (m : Nat) (e : Int)
    (a : UnpackedFloat.Accuracy) : (UnpackedFloat.roundWithAccuracy f s m e a).isNaN = false := by
  unfold UnpackedFloat.roundWithAccuracy
  simp only
  split <;> rfl

/-- Finite and not zero. -/
def Proper : UnpackedFloat → Bool
  | .finite .. => true
  | _ => false

theorem isNaN_mul (f : Format) {u v : UnpackedFloat} (hu : u.isNaN = false) (hv : Proper v = true) :
    (UnpackedFloat.mul f u v).isNaN = false := by
  cases v <;> cases hv
  cases u with
  | notANumber => cases hu
  | infinity => rfl
  | zero => rfl
  | finite => exact isNaN_roundWithAccuracy ..

theorem isNaN_div (f : Format) {u v : UnpackedFloat} (hu : u.isNaN = false) (hv : Proper v = true) :
    (UnpackedFloat.div f u v).isNaN = false := by
  cases v <;> cases hv
  cases u with
  | notANumber => cases hu
  | infinity => rfl
  | zero => rfl
  | finite => exact isNaN_roundWithAccuracy ..

theorem isNaN_ofNat (f : Format) (n : Nat) : (UnpackedFloat.ofNat f n).isNaN = false := by
  unfold UnpackedFloat.ofNat UnpackedFloat.ofInt UnpackedFloat.normalize
  split
  · exact isNaN_roundWithAccuracy ..
  · rfl
  · exact isNaN_roundWithAccuracy ..

theorem isNaN_ofScientific (f : Format) (m : Nat) (e : Int) :
    (UnpackedFloat.ofScientific f m e).isNaN = false := by
  unfold UnpackedFloat.ofScientific
  split_ifs
  · rfl
  · rfl
  · rfl
  · exact isNaN_mul f rfl rfl
  · exact isNaN_div f rfl rfl

theorem isNaN_unpack (f : Format) (s : UnpackedFloat.Sign) {e : BitVec f.exponentBits}
    {m : BitVec f.mantissaBitsWithoutImplicit} (h : e ≠ -1#_ ∨ m = 0#_) :
    (UnpackedFloat.unpack f (UnpackedFloat.packComponents f s e m)).isNaN = false := by
  unfold UnpackedFloat.unpack
  simp only [UnpackedFloat.unpackExponent_packComponents, UnpackedFloat.unpackMantissa_packComponents]
  split_ifs with he hm
  · rfl
  · exact absurd (h.resolve_left (not_not_intro he)) hm
  · rfl
  · rfl
  · rfl

/-- Storing a value does not make it undefined. -/
theorem isNaN_pack {u : UnpackedFloat} (hu : u.isNaN = false) : (Float.Model.pack u).isNaN = false := by
  show (UnpackedFloat.unpack Format.binary64 (UnpackedFloat.pack _ u)).isNaN = false
  cases u with
  | notANumber => cases hu
  | infinity => exact isNaN_unpack _ _ (.inr rfl)
  | zero => exact isNaN_unpack _ _ (.inr rfl)
  | finite s m e h =>
    unfold UnpackedFloat.pack
    simp only
    split_ifs with hlarge
    · exact isNaN_unpack _ _ (.inr rfl)
    · refine isNaN_unpack _ _ (.inl fun hones => hlarge ?_)
      have hnat := congrArg BitVec.toNat hones
      rw [BitVec.toNat_ofNat] at hnat
      have hmod := Nat.mod_le (e + Format.binary64.exponentBias + Format.binary64.mantissaBitsWithoutImplicit).toNat
        (2 ^ Format.binary64.exponentBits)
      rw [hnat] at hmod
      exact Nat.succ_le_succ hmod
    · exact isNaN_unpack _ _ (.inl (by decide))

theorem proper_powersOfTen : ∀ f ∈ Float.exactlyRepresentablePowersOfTen.toList,
    Proper f.toModel.unpack = true := by
  have hall : (Float.exactlyRepresentablePowersOfTen.toList.all fun f => Proper f.toModel.unpack) = true := by
    decide +kernel
  exact List.all_eq_true.1 hall

theorem isNaN_floatOfScientific (m : Nat) (s : Bool) (e : Nat) :
    (Float.ofScientific m s e).isNaN = false := by
  unfold Float.ofScientific
  split
  · have hm : m.toUInt64.toFloat.toModel.unpack.isNaN = false := isNaN_pack (isNaN_ofNat ..)
    simp only
    split
    · exact isNaN_pack (isNaN_div _ hm (proper_powersOfTen _ (by simp)))
    · exact isNaN_pack (isNaN_mul _ hm (proper_powersOfTen _ (by simp)))
  · exact isNaN_pack (isNaN_ofScientific ..)

theorem isNaN_neg {f : Float} (h : f.isNaN = false) : (-f).isNaN = false := by
  refine isNaN_pack ?_
  change f.toModel.unpack.isNaN = false at h
  cases hu : f.toModel.unpack <;> rw [hu] at h <;> first | rfl | cases h

/-- No decimal is read as an undefined number. -/
theorem isNaN_ofDecimal (d : Decimal) : (ofDecimal d).value.isNaN = false := by
  unfold ofDecimal
  simp only
  have h : (if d.digits = 0 then (0 : Float) else if 400 < ↑(toString d.digits).length + d.exponent then 1 / 0
    else if ↑(toString d.digits).length + d.exponent < -400 then 0
    else Float.ofScientific d.digits (decide (d.exponent < 0)) d.exponent.natAbs).isNaN = false := by
    split_ifs
    · exact isNaN_floatOfScientific ..
    · decide +kernel
    · exact isNaN_floatOfScientific ..
    · exact isNaN_floatOfScientific ..
  split
  · exact isNaN_neg h
  · exact h

/-! ## Keys of finite numbers -/

theorem isNaN_of_isFinite {f : Float} (h : f.isFinite = true) : f.isNaN = false := by
  unfold Float.isFinite Float.Model.isFinite at h
  unfold Float.isNaN Float.Model.isNaN
  generalize f.toModel.unpack = u at *
  cases u <;> first | rfl | cases h

theorem isFinite_of_not_isNaN {f : Float} (h : f.isNaN = false) (hinf : f.isInf = false) :
    f.isFinite = true := by
  unfold Float.isNaN Float.Model.isNaN at h
  unfold Float.isInf Float.Model.isInf at hinf
  unfold Float.isFinite Float.Model.isFinite
  generalize f.toModel.unpack = u at *
  cases u with
  | infinity => cases hinf
  | notANumber => cases h
  | zero => rfl
  | finite => rfl

theorem isNegative_iff {x : Double} (hx : x.value.isNaN = false) :
    x.isNegative = true ↔ 2 ^ 63 ≤ x.value.toBits.toNat := by
  unfold isNegative
  rw [hx, if_neg Bool.false_ne_true, beq_iff_eq, ← UInt64.toNat_inj,
    UInt64.toNat_shiftRight, Nat.shiftRight_eq_div_pow, show (63 : UInt64).toNat % 64 = 63 from rfl]
  have hlt := x.value.toBits.toNat_lt
  show _ = 1 ↔ _
  omega

/-- The key of a finite number reads as a decimal of its sign that rounds to it. -/
theorem exists_decimal_key {x : Double} (hx : x.value.isFinite = true) :
    ∃ d, Decimal.ofChars? (Scalar.key x).toList = some d ∧ d.negative = x.isNegative ∧
      (Binary.ofMagnitude (x.value.toBits.toNat % 2 ^ 63)).Covers d.magnitude := by
  have hkey : Scalar.key x = (if x.isNegative then "-" else "") ++ keyLayout.write
      (Binary.ofBits x.value.toBits).shortest.1 (Binary.ofBits x.value.toBits).shortest.2 := by
    show writeShortest keyLayout x = _
    unfold writeShortest write
    rw [isNaN_of_isFinite hx, if_neg Bool.false_ne_true]
    simp only
    rw [if_pos hx]
  obtain ⟨d, hd, hnegative, hmagnitude⟩ := keyLayout.readsAs_write
    (Binary.ofBits x.value.toBits).shortest.1 (Binary.ofBits x.value.toBits).shortest.2
    (if x.isNegative then ['-'] else []) x.isNegative (by cases x.isNegative <;> simp)
  refine ⟨d, ?_, hnegative, ?_⟩
  · rw [hkey, String.toList_append, ← hd]
    cases x.isNegative <;> rfl
  · rw [hmagnitude, Binary.ofBits_eq]
    exact Binary.covers_shortest_ofMagnitude _

theorem toBits_inj {f g : Float} (h : f.toBits = g.toBits) : f = g := by
  obtain ⟨⟨_, _⟩⟩ := f
  obtain ⟨⟨_, _⟩⟩ := g
  cases h
  rfl

/-- Numbers of one sign and one magnitude are the same. -/
theorem value_eq_of_magnitude {x y : Double} (hx : x.value.isNaN = false) (hy : y.value.isNaN = false)
    (hsign : x.isNegative = y.isNegative) (h : x.value.toBits.toNat % 2 ^ 63 = y.value.toBits.toNat % 2 ^ 63) :
    x.value = y.value := by
  have hbit : x.isNegative = true ↔ y.isNegative = true := by rw [hsign]
  rw [isNegative_iff hx, isNegative_iff hy] at hbit
  have hltx := x.value.toBits.toNat_lt
  have hlty := y.value.toBits.toNat_lt
  exact toBits_inj (UInt64.toNat_inj.1 (by omega))

/-- Finite numbers are told apart by their keys. -/
theorem value_eq_of_key {x y : Double} (hx : x.value.isFinite = true) (hy : y.value.isFinite = true)
    (h : Scalar.key x = Scalar.key y) : x.value = y.value := by
  obtain ⟨d, hd, hnegative, hcovers⟩ := exists_decimal_key hx
  obtain ⟨d', hd', hnegative', hcovers'⟩ := exists_decimal_key hy
  obtain rfl : d = d' := Option.some.inj (hd.symm.trans (h ▸ hd'))
  exact value_eq_of_magnitude (isNaN_of_isFinite hx) (isNaN_of_isFinite hy) (hnegative.symm.trans hnegative')
    (hcovers.unique hcovers')

end Atomspace.Double
