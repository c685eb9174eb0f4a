import Atomspace.Proofs.Numerals
import Mathlib
/-!
# The decimals that round to a value

A binary value stands for the numbers between the midpoints to its neighbours (`Binary.Covers`).
The shortest decimal is among them (`covers_shortest`), and none is among those of two values
(`Covers.unique`), so values are told apart by their shortest decimals.
-/

namespace Atomspace.Decimal.Binary

theorem zpow_mul_pow_toNat {x : ℚ} (hx : x ≠ 0) (i : Int) : x ^ i * x ^ (-i).toNat = x ^ i.toNat := by
  rw [← zpow_natCast, ← zpow_natCast, ← zpow_add₀ hx]
  congr 1
  omega

/-- Both sides are brought to whole numbers by one factor. -/
theorem compareScaled_eq (a : Nat) (i : Int) (n : Nat) (j : Int) :
    compareScaled a i n j = cmp ((a : ℚ) * 10 ^ i) (n * 2 ^ j) := by
  have hpos : (0 : ℚ) < 10 ^ (-i).toNat * 2 ^ (-j).toNat := by positivity
  have hleft : (((a * Nat.pow 10 i.toNat) <<< (-j).toNat : Nat) : ℚ) =
      (a * 10 ^ i) * (10 ^ (-i).toNat * 2 ^ (-j).toNat) := by
    rw [Nat.shiftLeft_eq, Nat.pow_eq]
    push_cast
    rw [← zpow_mul_pow_toNat (by norm_num) i]
    ring
  have hright : (((n * Nat.pow 10 (-i).toNat) <<< j.toNat : Nat) : ℚ) =
      (n * 2 ^ j) * (10 ^ (-i).toNat * 2 ^ (-j).toNat) := by
    rw [Nat.shiftLeft_eq, Nat.pow_eq]
    push_cast
    rw [← zpow_mul_pow_toNat (by norm_num) j]
    ring
  rw [← (strictMono_mul_right_of_pos hpos).cmp_map_eq, ← hleft, ← hright,
    Nat.strictMono_cast.cmp_map_eq, cmp_eq_compare]
  rfl

/-- Four times the significand at the lower midpoint. -/
def lowSignificand (x : Binary) : Nat :=
  if x.narrowBelow then 4 * x.significand - 1 else 4 * x.significand - 2

/-- The midpoint to the value below. -/
def low (x : Binary) : ℚ := x.lowSignificand * 2 ^ (x.exponent - 2)

/-- The midpoint to the value above. -/
def high (x : Binary) : ℚ := (4 * x.significand + 2 : Nat) * 2 ^ (x.exponent - 2)

/-- The number rounds to `x`: it lies between the midpoints, strictly where the significand is odd. -/
structure Covers (x : Binary) (v : ℚ) : Prop where
  low_le : x.low ≤ v
  le_high : v ≤ x.high
  low_lt : x.significand % 2 = 1 → x.low < v
  lt_high : x.significand % 2 = 1 → v < x.high

theorem readsBack_iff (x : Binary) (digits : Nat) (scale : Int) :
    x.readsBack digits scale = true ↔ x.Covers (digits * 10 ^ scale) := by
  unfold readsBack
  simp only [compareScaled_eq, Bool.and_eq_true, Bool.or_eq_true, beq_iff_eq, cmp_eq_gt_iff,
    cmp_eq_lt_iff, cmp_eq_eq_iff]
  rw [← lowSignificand, ← low, ← high]
  constructor
  · rintro ⟨hlow, hhigh⟩
    constructor
    · exact hlow.elim le_of_lt fun h => h.2.ge
    · exact hhigh.elim le_of_lt fun h => h.2.le
    · intro hodd
      exact hlow.resolve_right fun h => by omega
    · intro hodd
      exact hhigh.resolve_right fun h => by omega
  · rintro ⟨hlow, hhigh, hlow', hhigh'⟩
    rcases Nat.mod_two_eq_zero_or_one x.significand with h | h
    · exact ⟨hlow.lt_or_eq.imp id fun e => ⟨h, e.symm⟩, hhigh.lt_or_eq.imp id fun e => ⟨h, e⟩⟩
    · exact ⟨.inl (hlow' h), .inl (hhigh' h)⟩

theorem lowSignificand_le (x : Binary) : x.lowSignificand ≤ 4 * x.significand := by
  unfold lowSignificand
  split <;> omega

theorem low_lt_high (x : Binary) : x.low < x.high := by
  refine mul_lt_mul_of_pos_right (Nat.cast_lt.2 ?_) (zpow_pos (by norm_num) _)
  have := x.lowSignificand_le
  omega

/-- The value. -/
def value (x : Binary) : ℚ := x.significand * 2 ^ x.exponent

theorem value_eq_scaled (x : Binary) : x.value = (4 * x.significand : Nat) * 2 ^ (x.exponent - 2) := by
  rw [value, zpow_sub₀ (by norm_num)]
  push_cast
  ring

theorem low_lt_value {x : Binary} (hx : x.significand ≠ 0) : x.low < x.value := by
  rw [value_eq_scaled]
  refine mul_lt_mul_of_pos_right (Nat.cast_lt.2 ?_) (zpow_pos (by norm_num) _)
  unfold lowSignificand
  split <;> omega

theorem value_lt_high (x : Binary) : x.value < x.high := by
  rw [value_eq_scaled]
  exact mul_lt_mul_of_pos_right (Nat.cast_lt.2 (by omega)) (zpow_pos (by norm_num) _)

theorem covers_value {x : Binary} (hx : x.significand ≠ 0) : x.Covers x.value :=
  ⟨(low_lt_value hx).le, x.value_lt_high.le, fun _ => low_lt_value hx, fun _ => x.value_lt_high⟩

/-! ## The shortest decimal -/

theorem exact_value (x : Binary) : (x.exact.1 : ℚ) * 10 ^ x.exact.2 = x.value := by
  have h5 : (10 : ℚ) ^ (-((-x.exponent).toNat : Int)) * 5 ^ (-x.exponent).toNat * 2 ^ (-x.exponent).toNat = 1 := by
    rw [zpow_neg, zpow_natCast, mul_assoc, ← mul_pow]
    norm_num
  rw [exact, value]
  simp only
  rw [Nat.shiftLeft_eq, Nat.pow_eq]
  push_cast
  rw [← zpow_mul_pow_toNat (by norm_num) x.exponent]
  linear_combination (x.significand : ℚ) * 2 ^ x.exponent * h5

theorem stripZeros_value (n : Nat) (d : Nat × Int) :
    ((stripZeros n d).1 : ℚ) * 10 ^ (stripZeros n d).2 = d.1 * 10 ^ d.2 := by
  induction n generalizing d with
  | zero => rfl
  | succ n ih =>
    obtain ⟨digits, scale⟩ := d
    rw [stripZeros]
    split
    · rename_i h
      rw [ih]
      have hten : ((digits / 10 : Nat) : ℚ) * 10 = digits := by
        exact_mod_cast Nat.div_mul_cancel (Nat.dvd_of_mod_eq_zero h.2)
      rw [← hten, zpow_add₀ (by norm_num), zpow_one]
      ring
    · rfl

theorem covers_of_nearestAt? {x : Binary} {scale : Int} {d : Nat} (h : x.nearestAt? scale = some d) :
    x.Covers (d * 10 ^ scale) := by
  rw [← readsBack_iff]
  unfold nearestAt? at h
  simp only at h
  split at h
  · cases h
  · cases h; assumption
  · cases h; assumption
  · split at h <;> cases h <;> assumption

/-- The shortest decimal rounds to the value. -/
theorem covers_shortest {x : Binary} (hx : x.significand = 0 → x.narrowBelow = false) :
    x.Covers (x.shortest.1 * 10 ^ x.shortest.2) := by
  unfold shortest
  split
  · rename_i hzero
    have hpos : (0 : ℚ) < 2 ^ (x.exponent - 2) := zpow_pos (by norm_num) _
    constructor <;> simp [low, high, lowSignificand, hzero, hx hzero, hpos.le]
  · rename_i hne
    simp only
    rw [stripZeros_value]
    cases hfound : List.findSome? (fun scale => (x.nearestAt? scale).map fun d => (d, scale))
      ((List.range 17).map fun i : Nat => x.magnitude - 1 - i) with
    | none =>
      rw [Option.getD_none, exact_value]
      exact covers_value hne
    | some d =>
      obtain ⟨scale, -, h⟩ := List.exists_of_findSome?_eq_some hfound
      obtain ⟨digits, hdigits, rfl⟩ := Option.map_eq_some_iff.1 h
      exact covers_of_nearestAt? hdigits

/-! ## Values in order -/

/-- The value whose bits without the sign are those of `n`. -/
def ofMagnitude (n : Nat) : Binary :=
  if n / 2 ^ 52 = 0 then ⟨n % 2 ^ 52, -1074, false⟩
  else ⟨2 ^ 52 + n % 2 ^ 52, (n / 2 ^ 52 : Nat) - 1075, n % 2 ^ 52 == 0 && decide (1 < n / 2 ^ 52)⟩

theorem ofBits_eq (b : UInt64) : ofBits b = ofMagnitude (b.toNat % 2 ^ 63) := by
  have he : ((b >>> 52) &&& 0x7FF).toNat = b.toNat % 2 ^ 63 / 2 ^ 52 := by
    rw [UInt64.toNat_and, UInt64.toNat_shiftRight, show (0x7FF : UInt64).toNat = 2 ^ 11 - 1 from rfl,
      Nat.and_two_pow_sub_one_eq_mod, Nat.shiftRight_eq_div_pow,
      show (52 : UInt64).toNat % 64 = 52 from rfl]
    omega
  have hf : (b &&& 0xFFFFFFFFFFFFF).toNat = b.toNat % 2 ^ 63 % 2 ^ 52 := by
    rw [UInt64.toNat_and, show (0xFFFFFFFFFFFFF : UInt64).toNat = 2 ^ 52 - 1 from rfl,
      Nat.and_two_pow_sub_one_eq_mod]
    omega
  unfold ofBits ofMagnitude
  simp only [he, hf]
  rfl

theorem significand_ofMagnitude_mod_two (n : Nat) : (ofMagnitude n).significand % 2 = n % 2 := by
  unfold ofMagnitude
  split <;> simp only <;> omega

theorem ofMagnitude_small {r : Nat} (hr : r < 2 ^ 52) : ofMagnitude r = ⟨r, -1074, false⟩ := by
  rw [ofMagnitude, if_pos (Nat.div_eq_of_lt hr), Nat.mod_eq_of_lt hr]

theorem ofMagnitude_large (q : Nat) {r : Nat} (hr : r < 2 ^ 52) : ofMagnitude (2 ^ 52 * (q + 1) + r) =
    ⟨2 ^ 52 + r, (q : Int) - 1074, r == 0 && decide (0 < q)⟩ := by
  have hdiv : (2 ^ 52 * (q + 1) + r) / 2 ^ 52 = q + 1 := by omega
  have hmod : (2 ^ 52 * (q + 1) + r) % 2 ^ 52 = r := by omega
  rw [ofMagnitude, hdiv, hmod, if_neg (Nat.succ_ne_zero q)]
  congr 1
  · push_cast
    ring
  · simp

/-- Between neighbours there is one midpoint. -/
theorem low_ofMagnitude_succ (n : Nat) : (ofMagnitude (n + 1)).low = (ofMagnitude n).high := by
  obtain ⟨q, r, hr, rfl⟩ : ∃ q r, r < 2 ^ 52 ∧ n = 2 ^ 52 * q + r :=
    ⟨n / 2 ^ 52, n % 2 ^ 52, Nat.mod_lt _ (by norm_num), (Nat.div_add_mod _ _).symm⟩
  cases q with
  | zero =>
    rw [Nat.mul_zero, Nat.zero_add, ofMagnitude_small hr]
    by_cases hlast : r + 1 < 2 ^ 52
    · rw [ofMagnitude_small hlast]
      simp [low, high, lowSignificand, mul_add]
    · obtain rfl : r = 2 ^ 52 - 1 := by omega
      rw [show 2 ^ 52 - 1 + 1 = 2 ^ 52 * (0 + 1) + 0 from rfl, ofMagnitude_large 0 (by norm_num)]
      simp [low, high, lowSignificand]
  | succ q =>
    rw [ofMagnitude_large q hr]
    by_cases hlast : r + 1 < 2 ^ 52
    · rw [add_assoc, ofMagnitude_large q hlast]
      simp only [low, high, lowSignificand]
      rw [if_neg (by simp)]
      congr 2
    · -- the gap doubles, and with it the unit
      obtain rfl : r = 2 ^ 52 - 1 := by omega
      rw [show 2 ^ 52 * (q + 1) + (2 ^ 52 - 1) + 1 = 2 ^ 52 * (q + 1 + 1) + 0 by omega,
        ofMagnitude_large (q + 1) (by norm_num)]
      have hunit : (2 : ℚ) ^ (((q + 1 : Nat) : Int) - 1074 - 2) = 2 * 2 ^ ((q : Int) - 1074 - 2) := by
        rw [← zpow_one_add₀ (by norm_num)]
        congr 1
        push_cast
        ring
      simp only [low, high, lowSignificand, hunit]
      norm_num
      ring

theorem high_strictMono : StrictMono fun n => (ofMagnitude n).high := by
  refine strictMono_nat_of_lt_succ fun n => ?_
  rw [← low_ofMagnitude_succ n]
  exact low_lt_high _

/-- No number rounds to two values. -/
theorem Covers.le {m n : Nat} {v : ℚ} (hm : (ofMagnitude m).Covers v) (hn : (ofMagnitude n).Covers v) :
    n ≤ m := by
  by_contra! hlt
  obtain ⟨k, rfl⟩ : ∃ k, n = k + 1 := ⟨n - 1, by omega⟩
  -- at the midpoint of two neighbours the odd one is left out
  have hk : (ofMagnitude k).high ≤ (ofMagnitude m).high := by
    rw [← low_ofMagnitude_succ k]
    exact hn.low_le.trans hm.le_high
  obtain rfl : k = m := le_antisymm (high_strictMono.le_iff_le.1 hk) (by omega)
  have heq : v = (ofMagnitude k).high :=
    le_antisymm hm.le_high ((low_ofMagnitude_succ k).symm.le.trans hn.low_le)
  rcases Nat.mod_two_eq_zero_or_one k with h | h
  · have hodd : (ofMagnitude (k + 1)).significand % 2 = 1 := by
      rw [significand_ofMagnitude_mod_two]
      omega
    exact (hn.low_lt hodd).ne (by rw [heq, low_ofMagnitude_succ])
  · exact (hm.lt_high (by rwa [significand_ofMagnitude_mod_two])).ne heq

theorem Covers.unique {m n : Nat} {v : ℚ} (hm : (ofMagnitude m).Covers v)
    (hn : (ofMagnitude n).Covers v) : m = n :=
  le_antisymm (hn.le hm) (hm.le hn)

theorem covers_shortest_ofMagnitude (n : Nat) : (ofMagnitude n).Covers
    ((ofMagnitude n).shortest.1 * 10 ^ (ofMagnitude n).shortest.2) := by
  apply covers_shortest
  unfold ofMagnitude
  split
  · exact fun _ => rfl
  · intro h
    simp at h

end Atomspace.Decimal.Binary
