import Atomspace.Proofs.Layout
import Atomspace.Proofs.Nearest
/-!
# Texts of atoms read back

What is read and written again is read as the same atom, but for infinite numbers, whose texts are
names (`readAtom_text`). So a text reads back as an equal atom exactly when no number in it is
infinite (`exists_readAtom_text_iff`).

The text of a finite number denotes that number (`denotes_text`), since it is a decimal that rounds
to it; the text of every item is an item (`Item.text`).
-/

namespace Atomspace

open Decimal (Binary)
open Float.Model (UnpackedFloat Format)

namespace Decimal

/-! ## Numerals of finite numbers -/

theorem positional_zero (n : Nat) : positional n 0 = toString n ++ ".0" := by
  rw [← String.toList_inj, String.toList_append]
  simp [positional]

theorem mem_positional (digits : Nat) (scale : Int) : '.' ∈ (positional digits scale).toList := by
  unfold positional
  simp only
  split_ifs <;> simp

theorem Binary.value_eq_of_toNat? {x : Binary} {n : Nat} (h : x.toNat? = some n) : x.value = n := by
  unfold toNat? at h
  simp only [Option.ite_none_right_eq_some, Option.some.injEq, Nat.shiftLeft_eq, Nat.one_mul] at h
  obtain ⟨hmod, hdiv⟩ := h
  have hexact : n * 2 ^ (-x.exponent).toNat = x.significand * 2 ^ x.exponent.toNat := by
    rw [← hdiv]
    exact Nat.div_mul_cancel (Nat.dvd_of_mod_eq_zero hmod)
  have hpos : (0 : ℚ) < 2 ^ (-x.exponent).toNat := by positivity
  have hcast : (n : ℚ) * 2 ^ (-x.exponent).toNat = x.significand * 2 ^ x.exponent.toNat := by
    exact_mod_cast hexact
  rw [value, ← mul_left_inj' hpos.ne', hcast, ← zpow_mul_pow_toNat (by norm_num) x.exponent, mul_assoc]

end Decimal

namespace Double

open Decimal.Binary

/-- The text of a finite number without its sign. -/
def numeral (b : Binary) : String :=
  match b.toNat? with
  | some n => toString n ++ ".0"
  | none => Decimal.positional b.shortest.1 b.shortest.2

theorem covers_value_ofMagnitude (n : Nat) : (ofMagnitude n).Covers (ofMagnitude n).value := by
  by_cases hn : n = 0
  · have hpos : (0 : ℚ) < 2 ^ (-1074 - 2 : Int) := zpow_pos (by norm_num) _
    rw [hn, ofMagnitude_small (by norm_num)]
    constructor <;> simp [low, high, lowSignificand, Decimal.Binary.value]
  · exact covers_value (significand_ofMagnitude_pos hn).ne'

/-- The text is positional, and what it denotes rounds to the number. -/
theorem exists_positional (n : Nat) : ∃ digits scale,
    numeral (ofMagnitude n) = Decimal.positional digits scale ∧ (ofMagnitude n).Covers (digits * 10 ^ scale) := by
  unfold numeral
  split
  · rename_i k hk
    refine ⟨k, 0, (Decimal.positional_zero k).symm, ?_⟩
    rw [zpow_zero, mul_one, ← value_eq_of_toNat? hk]
    exact covers_value_ofMagnitude n
  · exact ⟨_, _, rfl, covers_shortest_ofMagnitude n⟩

theorem text_eq {x : Double} (hx : x.value.isFinite = true) :
    Scalar.text x = (if x.isNegative then "-" else "") ++ numeral (.ofBits x.value.toBits) := by
  show text x = _
  unfold text write
  rw [isNaN_of_isFinite hx, if_neg Bool.false_ne_true]
  simp only
  rw [if_pos hx]
  rfl

theorem isFinite_of_isInf {f : Float} (h : f.isInf = true) : f.isNaN = false ∧ f.isFinite = false := by
  unfold Float.isInf Float.Model.isInf at h
  unfold Float.isNaN Float.Model.isNaN Float.isFinite Float.Model.isFinite
  generalize f.toModel.unpack = u at *
  cases u <;> first | exact ⟨rfl, rfl⟩ | cases h

/-- All forms of an infinite number are the same. -/
theorem write_infinite (number : Binary → String) {x : Double} (hinf : x.value.isInf = true) :
    write number x = (if x.isNegative then "-" else "") ++ "inf" := by
  obtain ⟨hnan, hfinite⟩ := isFinite_of_isInf hinf
  unfold write
  rw [hnan, if_neg Bool.false_ne_true]
  simp only
  rw [hfinite, if_neg Bool.false_ne_true]

theorem text_infinite {x : Double} (hinf : x.value.isInf = true) :
    Scalar.text x = (if x.isNegative then "-" else "") ++ "inf" :=
  write_infinite numeral hinf

theorem key_infinite {x : Double} (hinf : x.value.isInf = true) : Scalar.key x = Scalar.text x := by
  rw [text_infinite hinf]
  exact write_infinite (fun b => keyLayout.write b.shortest.1 b.shortest.2) hinf

/-- The key of a number is `inf` with a sign, or a numeral. -/
theorem key_cases {x : Double} (hx : x.value.isNaN = false) :
    (x.value.isInf = true ∧ Scalar.key x = (if x.isNegative then "-" else "") ++ "inf") ∨
      (x.value.isFinite = true ∧ ∀ c ∈ (Scalar.key x).toList, Decimal.numeralChar c = true) := by
  cases hinf : x.value.isInf with
  | true => exact .inl ⟨rfl, by rw [key_infinite hinf, text_infinite hinf]⟩
  | false =>
    have hfinite := isFinite_of_not_isNaN hx hinf
    obtain ⟨d, hd, -⟩ := exists_decimal_key hfinite
    exact .inr ⟨hfinite, Decimal.numeralChar_of_ofChars? hd⟩

theorem magnitude_infinite {x : Double} (hinf : x.value.isInf = true) :
    x.value.toBits.toNat % 2 ^ 63 = infinite := by
  change (UnpackedFloat.unpack Format.binary64 x.value.toBits.toBitVec).isInf = true at hinf
  rw [unpack_eq, signed] at hinf
  split at hinf
  · cases hinf
  · split at hinf
    · assumption
    · split at hinf <;> cases hinf

/-- The magnitude of a finite number is less than that of infinity. -/
theorem magnitude_lt_infinite {x : Double} (hx : x.value.isFinite = true) :
    x.value.toBits.toNat % 2 ^ 63 < infinite := by
  change (UnpackedFloat.unpack Format.binary64 x.value.toBits.toBitVec).isFinite = true at hx
  rw [unpack_eq] at hx
  by_contra! hle
  rcases hle.lt_or_eq with h | h
  · rw [signed_undefined _ h] at hx
    cases hx
  · rw [← h, signed_infinite] at hx
    cases hx

/-- A finite number is made of its sign and its magnitude. -/
theorem value_eq_packed {x : Double} (hx : x.value.isFinite = true) :
    x.value = packed (if x.isNegative then .negative else .positive) (x.value.toBits.toNat % 2 ^ 63) := by
  have hneg := isNegative_iff (isNaN_of_isFinite hx)
  have hlt := x.value.toBits.toNat_lt
  apply toBits_inj
  rw [← UInt64.toNat_inj, toNat_toBits_packed _ (magnitude_lt_infinite hx).le]
  by_cases hsign : x.isNegative = true
  · rw [if_pos hsign]
    have := hneg.1 hsign
    show _ = 1 * 2 ^ 63 + _
    omega
  · rw [if_neg hsign]
    rw [hneg] at hsign
    show _ = 0 * 2 ^ 63 + _
    omega

/-- The text of a finite number that is read denotes that number. -/
theorem exists_decimal_text {d : Decimal} (hx : (ofDecimal d).value.isFinite = true) :
    ∃ d', Decimal.ofChars? (Scalar.text (ofDecimal d)).toList = some d' ∧ ofDecimal d' = ofDecimal d ∧
      '.' ∈ (Scalar.text (ofDecimal d)).toList := by
  generalize hdef : ofDecimal d = x at hx
  obtain ⟨digits, scale, hnumeral, hcovers⟩ := exists_positional (x.value.toBits.toNat % 2 ^ 63)
  obtain ⟨d', hd', hnegative, hmagnitude⟩ := Decimal.readsAs_positional digits scale
    (if x.isNegative then ['-'] else []) x.isNegative (by cases x.isNegative <;> simp)
  have htext : (Scalar.text x).toList =
      (if x.isNegative then ['-'] else []) ++ (Decimal.positional digits scale).toList := by
    rw [text_eq hx, ofBits_eq, hnumeral, String.toList_append]
    cases x.isNegative <;> rfl
  refine ⟨d', by rw [htext, hd'], ?_, ?_⟩
  · rw [← hmagnitude] at hcovers
    rw [ofDecimal_eq (magnitude_lt_infinite hx) hcovers, hnegative, ← value_eq_packed hx, ← hdef]
    rfl
  · rw [htext]
    exact List.mem_append_right _ (Decimal.mem_positional digits scale)

end Double

namespace Text

/-! ## Quoted texts -/

theorem surfaceEscape_cases (c : Char) : (∃ d, (d, c) ∈ [('"', '"'), ('\\', '\\'), ('n', '\n'), ('t', '\t')] ∧
    surfaceEscape c = ['\\', d]) ∨ (c ≠ '"' ∧ c ≠ '\\' ∧ surfaceEscape c = [c]) := by
  unfold surfaceEscape
  split
  · exact .inl ⟨'"', by simp, rfl⟩
  · exact .inl ⟨'\\', by simp, rfl⟩
  · exact .inl ⟨'n', by simp, rfl⟩
  · exact .inl ⟨'t', by simp, rfl⟩
  · rename_i hquote hslash _ _
    exact .inr ⟨hquote, hslash, rfl⟩

theorem quoted_surfaceEscape (cs : List Char) : Reader.Quoted (cs.flatMap surfaceEscape) cs := by
  induction cs with
  | nil => exact .nil
  | cons c cs ih =>
    rw [List.flatMap_cons]
    rcases surfaceEscape_cases c with ⟨d, hd, hc⟩ | ⟨hquote, hslash, hc⟩ <;> rw [hc]
    · exact .escape hd ih
    · exact .plain hquote hslash ih

end Text

namespace Atom

mutual

/-- The atom that the text of an atom stands for: the text of an infinite number is a name. -/
def reread : Atom Double → Atom Double
  | expr children => expr (rereadAll children)
  | float x => if x.value.isInf then symbol (Scalar.text x) else float x
  | a => a

/-- The atoms that the texts of a list of atoms stand for. -/
def rereadAll : List (Atom Double) → List (Atom Double)
  | [] => []
  | a :: l => reread a :: rereadAll l

end

theorem rereadAll_eq_map (l : List (Atom Double)) : rereadAll l = l.map reread := by
  induction l with
  | nil => rfl
  | cons a l ih => rw [rereadAll, ih, List.map_cons]

theorem texts_eq_map {ν : Type} [Scalar ν] (l : List (Atom ν)) : texts l = l.map text := by
  induction l with
  | nil => rfl
  | cons a l ih => rw [texts, ih, List.map_cons]

end Atom

namespace Reader

open Atom (reread)

/-! ## Items -/

theorem Row.blank {ν : Type} [Scalar ν] {c : Char} (hc : Text.isBlank c = true) {cs : List Char}
    {l : List (Atom ν)} (h : Row cs l) : Row (c :: cs) l := by
  cases h with
  | nil hgap => exact .nil (.blank hc hgap)
  | cons hgap hitem hapart hrow => exact .cons (.blank hc hgap) hitem hapart hrow

theorem apart_blank (cs rest : List Char) : Apart cs (' ' :: rest) := by
  rintro c - d ⟨⟩
  exact .inr rfl

theorem apart_nil (cs : List Char) : Apart cs [] := by
  rintro c - d ⟨⟩

/-- Items with blanks between them. -/
theorem row_intercalate {ν : Type} [Scalar ν] {cs : Atom ν → List Char} {f : Atom ν → Atom ν}
    {l : List (Atom ν)} (h : ∀ a ∈ l, Item (cs a) (f a)) : Row ([' '].intercalate (l.map cs)) (l.map f) := by
  induction l with
  | nil => exact .nil .nil
  | cons a l ih =>
    have ha := h a (by simp)
    have hl := ih fun b hb => h b (by simp [hb])
    cases l with
    | nil =>
      have hrow := Row.cons .nil ha (apart_nil _) (.nil .nil)
      simpa using hrow
    | cons b l =>
      have hrow := Row.cons .nil ha (apart_blank _ _) (hl.blank (c := ' ') rfl)
      simpa [List.intercalate_cons_cons] using hrow

/-- The text of an infinite number is a name. -/
theorem item_infinite (negative : Bool) : Item ((if negative then "-" else "") ++ "inf").toList
    (.symbol ((if negative then "-" else "") ++ "inf") : Atom Double) := by
  have hbare : ∀ c ∈ ['-', 'i', 'n', 'f'], isDelimiter c = false := by simp [isDelimiter, Text.isBlank]
  cases negative
  · exact .token (List.cons_ne_nil _ _) (fun c hc => hbare c (List.mem_cons_of_mem _ hc))
      (leaf?_eq_some_iff.1 (by rfl))
  · exact .token (List.cons_ne_nil _ _) hbare (leaf?_eq_some_iff.1 (by rfl))

/-- What has a point in it is not a whole number. -/
theorem not_whole_of_mem {cs : List Char} (h : '.' ∈ cs) (n : Int64) : ¬ Whole cs n := by
  rintro ⟨sign, negative, ds, hsign, rfl, hd, -, -⟩
  rcases List.mem_append.1 h with h | h
  · cases hsign <;> simp at h
  · cases hd _ h

theorem item_int (n : Int64) : Item (toString n).toList (.int n : Atom Double) := by
  refine .token ?_ (fun c hc => isDelimiter_of_numeralChar (numeralChar_of_mem_toString n c hc))
    (.int (int?_eq_some_iff.1 (int?_toString n)))
  intro hnil
  have hread := int?_toString n
  rw [hnil] at hread
  cases hread

/-- The text of a finite number that is read is a numeral for it. -/
theorem item_float {d : Decimal} (hx : (Double.ofDecimal d).value.isFinite = true) :
    Item (Scalar.text (Double.ofDecimal d)).toList (.float (Double.ofDecimal d)) := by
  obtain ⟨d', hd', heq, hpoint⟩ := Double.exists_decimal_text hx
  have hnumeral := Decimal.ofChars?_eq_some_iff.1 hd'
  have hdenotes := Denotes.float (ν := Double) (not_whole_of_mem hpoint) (startsNumeric_of_numeral hnumeral)
    hnumeral
  rw [show Scalar.ofDecimal d' = Double.ofDecimal d from heq] at hdenotes
  exact .token (List.ne_nil_of_mem hpoint)
    (fun c hc => isDelimiter_of_numeralChar (Decimal.numeralChar_of_ofChars? hd' c hc)) hdenotes

theorem item_text_float (d : Decimal) : Item (Scalar.text (Double.ofDecimal d)).toList
    (if (Double.ofDecimal d).value.isInf then .symbol (Scalar.text (Double.ofDecimal d))
      else .float (Double.ofDecimal d)) := by
  by_cases hinf : (Double.ofDecimal d).value.isInf = true
  · have hitem := item_infinite (Double.ofDecimal d).isNegative
    rw [← Double.text_infinite hinf] at hitem
    rwa [if_pos hinf]
  · have hitem := item_float (Double.isFinite_of_not_isNaN (Double.isNaN_ofDecimal d) (by simpa using hinf))
    rwa [if_neg hinf]

mutual

/-- The text of an item stands for the same atom, but for infinite numbers. -/
theorem Item.text {cs : List Char} {a : Atom Double} (h : Item cs a) : Item a.text.toList a.reread := by
  cases h with
  | token hne hbare hdenotes =>
    cases hdenotes with
    | @var name hname =>
      have htext : (Atom.var (String.ofList name) : Atom Double).text.toList = '$' :: name := by
        simp [Atom.text]
      rw [htext]
      exact .token hne hbare (.var hname)
    | int => exact item_int _
    | float => exact item_text_float _
    | symbol hhead hwhole hnumeral =>
      have htext : (Atom.symbol (String.ofList cs) : Atom Double).text.toList = cs := by
        simp [Atom.text]
      rw [htext]
      exact .token hne hbare (.symbol hhead hwhole hnumeral)
  | @quoted cs text =>
    have hquote : (Text.surfaceQuote (String.ofList text)).toList =
        '"' :: (text.flatMap Text.surfaceEscape ++ ['"']) := by
      simp [Text.surfaceQuote, Text.quote]
    rw [Atom.text, hquote]
    exact .quoted (Text.quoted_surfaceEscape text)
  | @group cs l hrow =>
    have htext : (Atom.expr l).text.toList =
        '(' :: ([' '].intercalate (l.map fun a => a.text.toList) ++ [')']) := by
      simp [Atom.text, Atom.texts_eq_map, Function.comp_def]
    rw [htext, Atom.reread, Atom.rereadAll_eq_map]
    exact .group (row_intercalate (Row.text hrow))

theorem Row.text {cs : List Char} {l : List (Atom Double)} (h : Row cs l) :
    ∀ a ∈ l, Item a.text.toList a.reread := by
  cases h with
  | nil => exact List.forall_mem_nil _
  | cons _ hitem _ hrow => exact List.forall_mem_cons.2 ⟨Item.text hitem, Row.text hrow⟩

end

/-! ## Single atoms -/

variable {ν : Type} [Scalar ν]

/-- An item is a text of one atom. -/
theorem readAtom_of_item {t : String} {a : Atom ν} (h : Item t.toList a) : readAtom t = .ok a := by
  have hread : readAll t = .ok (State.put {} a t.toList) := by
    have hitem := h.read (s := {}) rfl (apart_nil t.toList) (by simp)
    rw [List.append_nil, State.read_nil (.inl (State.mode_put ..)) rfl] at hitem
    exact hitem
  unfold readAtom
  rw [hread]
  rfl

theorem exists_item {t : String} {a : Atom ν} (h : readAtom t = .ok a) : ∃ cs, Item cs a := by
  obtain ⟨s, hs, h⟩ := ok_of_bind h
  obtain ⟨l, hl⟩ := (parts_of_read (s := {}) rfl hs).1 rfl
  obtain ⟨u, hu, hstatements⟩ := hl.read (s := {}) rfl rfl
  obtain rfl : s = u := Except.ok.inj (hs.symm.trans hu)
  split at h <;> cases h
  rename_i statement place hsingle
  have hmap := congrArg (List.map Prod.fst) hsingle
  rw [List.map_reverse, hstatements] at hmap
  have hl' : l = [statement] := by simpa using hmap
  rw [hl'] at hl
  generalize t.toList = cs at hl
  cases hl with
  | assert _ hitem => exact ⟨_, hitem⟩
  | evaluate _ hrow => exact ⟨_, .group hrow⟩

end Reader

/-- What is read and written again is read as the same atom, but for infinite numbers. -/
theorem readAtom_text {t : String} {a : Atom Double} (h : readAtom t = .ok a) :
    readAtom a.text = .ok a.reread := by
  obtain ⟨cs, hitem⟩ := Reader.exists_item h
  exact Reader.readAtom_of_item hitem.text

namespace Atom

/-! ## Equality with what is read -/

/-- The number of infinite numbers in an atom. -/
def infinities (a : Atom Double) : Nat :=
  a.floats.countP fun x => x.value.isInf

theorem infinities_expr (l : List (Atom Double)) : (expr l).infinities = (l.map infinities).sum := by
  rw [infinities, floats, floatsAll_eq_flatMap, List.countP_flatMap]
  rfl

theorem length_intercalate (l : List String) :
    (" ".intercalate l).length = (l.map String.length).sum + (l.length - 1) := by
  induction l with
  | nil => rfl
  | cons s l ih =>
    cases l with
    | nil => simp
    | cons t l =>
      rw [String.intercalate_cons_cons, String.length_append, String.length_append, ih,
        show " ".length = 1 from rfl]
      simp only [List.map_cons, List.sum_cons, List.length_cons]
      omega

theorem length_key_expr (l : List (Atom Double)) :
    (expr l).key.length = (l.map fun a => a.key.length).sum + (l.length - 1) + 2 := by
  rw [key, keys_eq_map, String.length_append, String.length_append, length_intercalate, List.map_map,
    List.length_map]
  simp only [Function.comp_def, show "(".length = 1 from rfl, show ")".length = 1 from rfl]
  omega

/-- An infinite number is read back as a name, whose key has no tag, so it is seven characters
shorter. -/
theorem length_key_reread {N : Set Double} {a : Atom Double} (h : Legible N a) :
    a.reread.key.length + 7 * a.infinities = a.key.length := by
  induction h with
  | symbol | var | int | str => rfl
  | @float x =>
    unfold reread
    by_cases hinf : x.value.isInf = true
    · have hcount : (float x).infinities = 1 := by simp [infinities, floats, hinf]
      rw [if_pos hinf, hcount, key, key, Double.key_infinite hinf, String.length_append, Nat.add_comm]
      rfl
    · have hcount : (float x).infinities = 0 := by simp [infinities, floats, hinf]
      rw [if_neg hinf, hcount, Nat.mul_zero, Nat.add_zero]
  | @expr l _ ih =>
    rw [reread, rereadAll_eq_map, length_key_expr, length_key_expr, infinities_expr, List.map_map,
      List.length_map]
    have hsum : (l.map fun a => a.reread.key.length).sum + 7 * (l.map infinities).sum =
        (l.map fun a => a.key.length).sum := by
      rw [← List.sum_map_mul_left, ← List.sum_map_add]
      exact congrArg List.sum (List.map_congr_left ih)
    simp only [Function.comp_def]
    omega

theorem reread_eq_self {N : Set Double} {a : Atom Double} (h : Legible N a)
    (hfinite : ∀ x ∈ a.floats, x.value.isInf = false) : a.reread = a := by
  induction h with
  | symbol | var | int | str => rfl
  | @float x =>
    have hx := hfinite x (by simp [floats])
    rw [reread, hx, if_neg Bool.false_ne_true]
  | @expr l _ ih =>
    rw [reread, rereadAll_eq_map]
    congr 1
    rw [List.map_congr_left (g := id), List.map_id]
    intro a ha
    refine ih a ha fun x hx => hfinite x ?_
    rw [floats, floatsAll_eq_flatMap]
    exact List.mem_flatMap.2 ⟨a, ha, hx⟩

end Atom

/-- What is read is written as a text that reads back as an equal atom exactly when no number in it is
infinite. -/
theorem exists_readAtom_text_iff {t : String} {a : Atom Double} (h : readAtom t = .ok a) :
    (∃ b, readAtom a.text = .ok b ∧ (b == a) = true) ↔ ∀ x ∈ a.floats, x.value.isInf = false := by
  have hread := readAtom_text h
  have hlegible := legible_of_readAtom h
  constructor
  · rintro ⟨b, hb, heq⟩
    obtain rfl : a.reread = b := Except.ok.inj (hread.symm.trans hb)
    have hkey := ((Atom.beq_iff _ _).1 heq).2
    have hlength := Atom.length_key_reread hlegible
    rw [hkey] at hlength
    have hnone : a.infinities = 0 := by omega
    rw [Atom.infinities, List.countP_eq_zero] at hnone
    simpa using hnone
  · intro hfinite
    rw [Atom.reread_eq_self hlegible hfinite] at hread
    exact ⟨a, hread, (Atom.beq_iff _ _).2 ⟨rfl, rfl⟩⟩

/-- Numbers of all sorts, a text with escapes and the mark of directives in a group. -/
def assorted : Atom Double :=
  .expr [.symbol "!", .expr [.var "x", .float (Scalar.ofDecimal { digits := 1, exponent := 22 })],
    .float (Scalar.ofDecimal { negative := true, digits := 0 }), .str "a\n\"b\"",
    .float (Scalar.ofDecimal { digits := 25, exponent := -400 }), .int (-7)]

/-- Large, small and signed numbers amid other items are read back. -/
theorem exists_readAtom_text_assorted : ∃ b, readAtom assorted.text = .ok b ∧ (b == assorted) = true :=
  (exists_readAtom_text_iff (t := "!(! ($x 1e22)\n -0e0 \"a\\n\\\"b\\\"\"25e-400 -07) ; all sorts") (by rfl)).2
    (by decide +kernel)

/-- A numeral beyond the range of doubles is read as infinity, whose text is a name. -/
theorem readAtom_text_loses_infinity : ¬ ∀ (t : String) (a : Atom Double), readAtom t = .ok a →
    ∃ b, readAtom a.text = .ok b ∧ (b == a) = true := by
  intro h
  obtain ⟨b, hb, heq⟩ := h "1e999" (.float (Scalar.ofDecimal { digits := 1, exponent := 999 })) (by rfl)
  have htext : (Atom.float (Scalar.ofDecimal { digits := 1, exponent := 999 }) : Atom Double).text = "inf" := by
    decide +kernel
  have hname : readAtom "inf" = .ok (.symbol "inf" : Atom Double) := by rfl
  rw [htext, hname] at hb
  cases hb
  revert heq
  decide +kernel

end Atomspace
