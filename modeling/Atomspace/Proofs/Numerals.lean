import Atomspace.Double
import Atomspace.Reader.Token
import Mathlib.Algebra.Order.Field.Basic
import Mathlib.Data.Rat.Cast.Order
import Mathlib.Tactic.Linarith
import Mathlib.Tactic.FieldSimp
import Mathlib.Tactic.Ring
/-!
# Numerals read back
-/

namespace Atomspace

namespace Decimal

/-! ## Digits -/

theorem ofDigits_eq (ds : List Char) : ofDigits ds = Nat.ofDigitChars 10 ds 0 :=
  rfl

theorem ofDigits_append (ds es : List Char) :
    ofDigits (ds ++ es) = ofDigits ds * 10 ^ es.length + ofDigits es := by
  rw [ofDigits_eq, Nat.ofDigitChars_append, Nat.ofDigitChars_eq_ofDigitChars_zero, mul_comm]
  rfl

theorem ofDigits_zeros (n : Nat) : ofDigits (List.replicate n '0') = 0 := by
  rw [ofDigits_eq, Nat.ofDigitChars_replicate_zero, Nat.mul_zero]

theorem toList_toString (n : Nat) : (toString n).toList = Nat.toDigits 10 n :=
  Nat.toList_repr

theorem ofDigits_toDigits (n : Nat) : ofDigits (Nat.toDigits 10 n) = n :=
  Nat.ofDigitChars_ten_toDigits

/-- Digits alone. -/
def Digits (ds : List Char) : Prop := ∀ c ∈ ds, c.isDigit = true

theorem digits_toDigits (n : Nat) : Digits (Nat.toDigits 10 n) :=
  fun _ hc => Nat.isDigit_of_mem_toDigits (by decide) (by decide) hc

theorem digits_zeros (n : Nat) : Digits (List.replicate n '0') := by
  intro c hc
  rw [List.eq_of_mem_replicate hc]
  rfl

theorem Digits.append {ds es : List Char} (hd : Digits ds) (he : Digits es) : Digits (ds ++ es) :=
  List.forall_mem_append.2 ⟨hd, he⟩

/-- No digit follows. -/
def NoDigit (cs : List Char) : Prop := ∀ c ∈ cs.head?, c.isDigit = false

theorem Digits.takeWhile {ds cs : List Char} (hd : Digits ds) (hc : NoDigit cs) :
    (ds ++ cs).takeWhile Char.isDigit = ds := by
  rw [List.takeWhile_append_of_pos hd]
  cases cs with
  | nil => simp
  | cons c cs => simp [hc c rfl]

theorem Digits.dropWhile {ds cs : List Char} (hd : Digits ds) (hc : NoDigit cs) :
    (ds ++ cs).dropWhile Char.isDigit = cs := by
  rw [List.dropWhile_append_of_pos hd]
  cases cs with
  | nil => simp
  | cons c cs => simp [hc c rfl]

theorem splitSign_of_digit {c : Char} (hc : c.isDigit = true) (cs : List Char) :
    splitSign (c :: cs) = (false, c :: cs) := by
  unfold splitSign
  split <;> first | rfl | (rename_i h; cases h; cases hc)

theorem splitSign_of_digits {ds : List Char} (hd : Digits ds) (hne : ds ≠ []) (cs : List Char) :
    splitSign (ds ++ cs) = (false, ds ++ cs) := by
  cases ds with
  | nil => exact absurd rfl hne
  | cons c ds => exact splitSign_of_digit (hd c (by simp)) _

/-- Reading digits with a point among them and an exponent behind. -/
theorem ofChars?_point {text : List Char} (ds es cs : List Char) {negative : Bool}
    (hs : splitSign text = (negative, ds ++ '.' :: (es ++ cs))) (hd : Digits ds) (he : Digits es)
    (hne : ds ≠ [] ∨ es ≠ []) (hc : NoDigit cs) : ofChars? text = (exponentOfChars? cs).map fun e =>
      { negative, digits := ofDigits (ds ++ es), exponent := e - es.length } := by
  have hpoint : NoDigit ('.' :: (es ++ cs)) := by
    intro c h
    cases h
    rfl
  unfold ofChars?
  rw [hs]
  simp only [hd.takeWhile hpoint, hd.dropWhile hpoint, he.takeWhile hc, he.dropWhile hc]
  rw [if_neg (by rcases hne with hne | hne <;> simp [hne])]

/-- Reading digits without a point and an exponent behind. -/
theorem ofChars?_whole {text ds cs : List Char} {negative : Bool}
    (hs : splitSign text = (negative, ds ++ cs)) (hd : Digits ds) (hne : ds ≠ []) (hc : NoDigit cs)
    (hpoint : cs.head? ≠ some '.') : ofChars? text = (exponentOfChars? cs).map fun e =>
      { negative, digits := ofDigits ds, exponent := e } := by
  unfold ofChars?
  rw [hs]
  simp only [hd.takeWhile hc, hd.dropWhile hc]
  split
  · exact absurd rfl hpoint
  · simp [hne]

/-! ## Whole numbers -/

theorem toList_toString_int (k : Int) : (toString k).toList =
    (if k < 0 then ['-'] else []) ++ Nat.toDigits 10 k.natAbs := by
  cases k with
  | ofNat n => exact (toList_toString n)
  | negSucc n =>
    simp [toString, Int.repr]

/-- The sign and the digits of a whole number. -/
theorem splitSign_toString (k : Int) :
    splitSign (toString k).toList = (decide (k < 0), Nat.toDigits 10 k.natAbs) := by
  rw [toList_toString_int]
  split
  · rename_i hneg
    simp [splitSign, hneg]
  · rename_i hneg
    have hs := splitSign_of_digits (digits_toDigits k.natAbs) Nat.toDigits_ne_nil []
    rw [List.append_nil] at hs
    simp [hs, hneg]

theorem exponentOfChars?_toString (k : Int) :
    exponentOfChars? ('e' :: (toString k).toList) = some k := by
  have hall : (Nat.toDigits 10 k.natAbs).all Char.isDigit = true :=
    List.all_eq_true.2 (digits_toDigits k.natAbs)
  unfold exponentOfChars?
  simp only [true_or, if_true, splitSign_toString, hall, ofDigits_toDigits, Bool.not_true, Bool.or_self,
    List.isEmpty_eq_false_iff.2 Nat.toDigits_ne_nil, Bool.false_eq_true, if_false, decide_eq_true_eq]
  split <;> exact congrArg some (by omega)

/-! ## Layouts -/

/-- What the digits and the exponent of a decimal denote, whatever its sign. -/
def magnitude (d : Decimal) : ℚ := d.digits * 10 ^ d.exponent

/-- The text, behind a sign or not, reads as the number that `digits * 10 ^ scale` denotes. -/
def ReadsAs (text : String) (digits : Nat) (scale : Int) : Prop :=
  ∀ sign negative, (sign = ['-'] ∧ negative = true ∨ sign = [] ∧ negative = false) →
    ∃ d, ofChars? (sign ++ text.toList) = some d ∧ d.negative = negative ∧
      d.magnitude = digits * 10 ^ scale

theorem splitSign_append {sign ds : List Char} {negative : Bool}
    (hsign : sign = ['-'] ∧ negative = true ∨ sign = [] ∧ negative = false) (hd : Digits ds)
    (hne : ds ≠ []) (cs : List Char) : splitSign (sign ++ (ds ++ cs)) = (negative, ds ++ cs) := by
  rcases hsign with ⟨rfl, rfl⟩ | ⟨rfl, rfl⟩
  · rfl
  · exact splitSign_of_digits hd hne cs

theorem noDigit_nil : NoDigit [] := by
  rintro c ⟨⟩

theorem readsAs_point (ds es : List Char) (hd : Digits ds) (hne : ds ≠ []) (he : Digits es)
    {digits : Nat} {scale : Int}
    (hval : (ofDigits (ds ++ es) : ℚ) = digits * 10 ^ (scale + es.length)) :
    ReadsAs (String.ofList (ds ++ '.' :: es)) digits scale := by
  intro sign negative hsign
  have hs := splitSign_append hsign hd hne ('.' :: (es ++ []))
  have hread := ofChars?_point ds es [] hs hd he (.inl hne) noDigit_nil
  rw [List.append_nil] at hread
  refine ⟨{ negative, digits := ofDigits (ds ++ es), exponent := 0 - es.length }, ?_, rfl, ?_⟩
  · rw [String.toList_ofList, hread]
    rfl
  · rw [magnitude, hval, mul_assoc, ← zpow_add₀ (by norm_num)]
    congr 2
    ring

theorem readsAs_positional (digits : Nat) (scale : Int) :
    ReadsAs (positional digits scale) digits scale := by
  have hds := digits_toDigits digits
  have hne := Nat.toDigits_ne_nil (n := digits) (b := 10)
  unfold positional
  simp only [toList_toString]
  split
  · rename_i hscale
    -- all digits stand before the point, and a zero behind it
    obtain ⟨n, rfl⟩ := Int.eq_ofNat_of_zero_le hscale
    rw [Int.toNat_natCast]
    refine readsAs_point _ ['0'] (hds.append (digits_zeros n)) (by simp [hne]) (by simp [Digits]) ?_
    rw [ofDigits_append, ofDigits_append, ofDigits_toDigits, ofDigits_zeros, List.length_replicate,
      show ofDigits ['0'] = 0 from rfl, List.length_singleton, zpow_add₀ (by norm_num), zpow_natCast]
    push_cast
    ring
  · rename_i hscale
    obtain ⟨p, hp⟩ := Int.eq_ofNat_of_zero_le (show 0 ≤ -scale by omega)
    obtain rfl : scale = -p := by omega
    rw [neg_neg, Int.toNat_natCast]
    split
    · -- the point stands among the digits
      rename_i hlt
      have hlen : ((Nat.toDigits 10 digits).drop ((Nat.toDigits 10 digits).length - p)).length = p := by
        rw [List.length_drop]
        omega
      refine readsAs_point _ _ (fun c hc => hds c (List.mem_of_mem_take hc)) ?_
        (fun c hc => hds c (List.mem_of_mem_drop hc)) ?_
      · rw [← List.length_pos_iff, List.length_take]
        omega
      · rw [List.take_append_drop, ofDigits_toDigits, hlen, neg_add_cancel, zpow_zero, mul_one]
    · -- the point stands before all digits, behind a zero
      rename_i hge
      have hlen : (List.replicate (p - (Nat.toDigits 10 digits).length) '0' ++
          Nat.toDigits 10 digits).length = p := by
        rw [List.length_append, List.length_replicate]
        omega
      refine readsAs_point ['0'] _ (by simp [Digits]) (by simp) ((digits_zeros _).append hds) ?_
      rw [ofDigits_append, ofDigits_append, ofDigits_toDigits, ofDigits_zeros, hlen,
        show ofDigits ['0'] = 0 from rfl, neg_add_cancel, zpow_zero]
      simp

theorem noDigit_exponent (cs : List Char) : NoDigit ('e' :: cs) := by
  rintro c ⟨⟩
  rfl

theorem readsAs_scientific (digits : Nat) (scale : Int) :
    ReadsAs (scientific digits scale) digits scale := by
  have hds := digits_toDigits digits
  have hne := Nat.toDigits_ne_nil (n := digits) (b := 10)
  have hvalue := ofDigits_toDigits digits
  intro sign negative hsign
  unfold scientific
  simp only [toList_toString]
  generalize Nat.toDigits 10 digits = ds at hds hne hvalue
  match ds with
  | [] => exact absurd rfl hne
  | [c] =>
    have hread := ofChars?_whole (splitSign_append hsign hds hne ('e' :: (toString scale).toList))
      hds hne (noDigit_exponent _) (by simp)
    rw [exponentOfChars?_toString, hvalue] at hread
    exact ⟨_, by simpa using hread, rfl, rfl⟩
  | c :: d :: ds =>
    have hpoint := ofChars?_point [c] (d :: ds)
      ('e' :: (toString (scale + (ds.length + 1 : Nat))).toList)
      (splitSign_append hsign (fun x hx => hds x (by simp_all)) (by simp) _)
      (fun x hx => hds x (by simp_all)) (fun x hx => hds x (by simp_all)) (.inl (by simp))
      (noDigit_exponent _)
    rw [exponentOfChars?_toString, show [c] ++ d :: ds = c :: d :: ds from rfl, hvalue] at hpoint
    refine ⟨_, by simpa using hpoint, rfl, ?_⟩
    simp [magnitude]

/-- In every layout a decimal reads back as the number that it stands for. -/
theorem Layout.readsAs_write (l : Layout) (digits : Nat) (scale : Int) :
    ReadsAs (l.write digits scale) digits scale := by
  unfold write
  simp only
  split
  · exact readsAs_positional digits scale
  · exact readsAs_scientific digits scale

/-! ## What can be read -/

/-- A character that a numeral may have. -/
def numeralChar (c : Char) : Bool :=
  c.isDigit || c == '-' || c == '+' || c == '.' || c == 'e' || c == 'E'

theorem numeralChar_of_isDigit {c : Char} (h : c.isDigit = true) : numeralChar c = true := by
  simp [numeralChar, h]

theorem eq_of_splitSign (cs : List Char) : ∃ sign, cs = sign ++ (splitSign cs).2 ∧
    ∀ c ∈ sign, numeralChar c = true := by
  unfold splitSign
  split
  · exact ⟨['-'], rfl, by simp [numeralChar]⟩
  · exact ⟨['+'], rfl, by simp [numeralChar]⟩
  · exact ⟨[], rfl, by simp⟩

theorem numeralChar_of_exponentOfChars? {cs : List Char} {e : Int} (h : exponentOfChars? cs = some e) :
    ∀ c ∈ cs, numeralChar c = true := by
  unfold exponentOfChars? at h
  split at h
  · simp
  · rename_i c cs
    split at h
    · rename_i hc
      obtain ⟨sign, hcs, hsign⟩ := eq_of_splitSign cs
      simp only at h
      split at h
      · cases h
      · rename_i hdigits
        rw [hcs]
        refine List.forall_mem_cons.2 ⟨?_, List.forall_mem_append.2 ⟨hsign, ?_⟩⟩
        · rcases hc with rfl | rfl <;> rfl
        · intro c hc
          simp only [Bool.or_eq_true, Bool.not_eq_true', not_or, Bool.not_eq_false] at hdigits
          exact numeralChar_of_isDigit (List.all_eq_true.1 hdigits.2 c hc)
    · cases h

theorem digits_takeWhile (cs : List Char) : Digits (cs.takeWhile Char.isDigit) :=
  List.all_eq_true.1 List.all_takeWhile

/-- The parts of what reads as a number, behind its sign. -/
theorem parts_of_ofChars? {cs : List Char} {d : Decimal} (h : ofChars? cs = some d) :
    ∃ ds rest, (splitSign cs).2 = ds ++ rest ∧ Digits ds ∧
      ((∃ es tail e, rest = '.' :: (es ++ tail) ∧ Digits es ∧ (ds = [] → es ≠ []) ∧
          exponentOfChars? tail = some e) ∨
        ds ≠ [] ∧ ∃ e, exponentOfChars? rest = some e) := by
  refine ⟨_, _, List.takeWhile_append_dropWhile.symm, digits_takeWhile _, ?_⟩
  unfold ofChars? at h
  simp only at h
  split at h
  · rename_i cs' hpoint
    simp only [Option.ite_none_left_eq_some] at h
    obtain ⟨hsome, h⟩ := h
    obtain ⟨e, he, -⟩ := Option.map_eq_some_iff.1 h
    refine .inl ⟨cs'.takeWhile Char.isDigit, _, e, ?_, digits_takeWhile _, ?_, he⟩
    · rw [hpoint, List.takeWhile_append_dropWhile]
    · intro hds hes
      exact hsome (by rw [hds, hes]; rfl)
  · simp only [Option.ite_none_left_eq_some] at h
    obtain ⟨hsome, h⟩ := h
    obtain ⟨e, he, -⟩ := Option.map_eq_some_iff.1 h
    refine .inr ⟨?_, e, he⟩
    intro hds
    exact hsome (by rw [hds]; rfl)

/-- What reads as a number has only characters of numerals. -/
theorem numeralChar_of_ofChars? {cs : List Char} {d : Decimal} (h : ofChars? cs = some d) :
    ∀ c ∈ cs, numeralChar c = true := by
  obtain ⟨sign, hcs, hsign⟩ := eq_of_splitSign cs
  obtain ⟨ds, rest, hbody, hds, hrest⟩ := parts_of_ofChars? h
  rw [hcs, hbody]
  refine List.forall_mem_append.2 ⟨hsign, List.forall_mem_append.2
    ⟨fun c hc => numeralChar_of_isDigit (hds c hc), ?_⟩⟩
  rcases hrest with ⟨es, tail, e, rfl, hes, -, he⟩ | ⟨-, e, he⟩
  · exact List.forall_mem_cons.2 ⟨rfl, List.forall_mem_append.2
      ⟨fun c hc => numeralChar_of_isDigit (hes c hc), numeralChar_of_exponentOfChars? he⟩⟩
  · exact numeralChar_of_exponentOfChars? he

theorem looksNumeric_of_ofChars? {cs : List Char} {d : Decimal} (h : ofChars? cs = some d) :
    Reader.looksNumeric cs = true := by
  obtain ⟨ds, rest, hbody, hds, hrest⟩ := parts_of_ofChars? h
  unfold Reader.looksNumeric
  rw [hbody]
  cases ds with
  | cons c ds =>
    have hc := hds c (by simp)
    rw [List.cons_append]
    split
    · rename_i e
      rw [(List.cons.inj e).1] at hc
      cases hc
    · rename_i e
      rwa [(List.cons.inj e).1] at hc
    · rename_i e
      cases e
  | nil =>
    rcases hrest with ⟨es, tail, e, rfl, hes, hne, -⟩ | ⟨hne, -⟩
    · cases es with
      | nil => exact absurd rfl (hne rfl)
      | cons c es => exact hes c (by simp)
    · exact absurd rfl hne

/-- Numbers are read from whatever starts like one. -/
theorem decimal?_eq (cs : List Char) : Reader.decimal? cs = ofChars? cs := by
  unfold Reader.decimal?
  split
  · rfl
  · rename_i hnot
    cases h : ofChars? cs with
    | none => rfl
    | some d => exact absurd (looksNumeric_of_ofChars? h) hnot

end Decimal

end Atomspace
