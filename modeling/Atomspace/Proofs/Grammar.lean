import Atomspace.Proofs.Reader
/-!
# The grammar of the surface syntax

What a text is made of, said without the reader. A token *denotes* a leaf, an `Item` is a token, a
quoted text or a group, a `Row` is what stands inside a group, and a `Layout` is a whole text.

Tokens are split into leaves as the grammar says (`leaf?_eq_some_iff`), by grammars of their own for
whole numbers (`int?_eq_some_iff`) and decimals (`ofChars?_eq_some_iff`).
-/

namespace Atomspace

namespace Decimal

/-! ## Numerals -/

/-- An optional sign, and whether it is minus. -/
inductive Sign : List Char → Bool → Prop
  | absent : Sign [] false
  | plus : Sign ['+'] false
  | minus : Sign ['-'] true

/-- The exponent of a decimal: a mark and a whole number, or nothing. -/
inductive Exponent : List Char → Int → Prop
  | absent : Exponent [] 0
  | marked {mark : Char} {sign : List Char} {negative : Bool} {ds : List Char} : mark = 'e' ∨ mark = 'E' →
      Sign sign negative → Digits ds → ds ≠ [] →
      Exponent (mark :: (sign ++ ds)) (if negative then -(ofDigits ds : Int) else ofDigits ds)

/-- A decimal: digits with at most one point among or around them, a sign before and an exponent
behind. -/
inductive Numeral : List Char → Decimal → Prop
  | whole {sign : List Char} {negative : Bool} {ds cs : List Char} {e : Int} : Sign sign negative →
      Digits ds → ds ≠ [] → Exponent cs e →
      Numeral (sign ++ (ds ++ cs)) { negative, digits := ofDigits ds, exponent := e }
  | point {sign : List Char} {negative : Bool} {ds es cs : List Char} {e : Int} : Sign sign negative →
      Digits ds → Digits es → ds ≠ [] ∨ es ≠ [] → Exponent cs e →
      Numeral (sign ++ (ds ++ '.' :: (es ++ cs)))
        { negative, digits := ofDigits (ds ++ es), exponent := e - es.length }

theorem sign_splitSign (cs : List Char) :
    ∃ sign, Sign sign (splitSign cs).1 ∧ cs = sign ++ (splitSign cs).2 := by
  unfold splitSign
  split
  · exact ⟨['-'], .minus, rfl⟩
  · exact ⟨['+'], .plus, rfl⟩
  · exact ⟨[], .absent, rfl⟩

/-- Behind a sign there is no other one. -/
theorem Sign.splitSign {sign : List Char} {negative : Bool} (h : Sign sign negative) {c : Char}
    (hc : c.isDigit = true ∨ c = '.') (cs : List Char) :
    Decimal.splitSign (sign ++ c :: cs) = (negative, c :: cs) := by
  cases h with
  | plus => rfl
  | minus => rfl
  | absent =>
    rcases hc with hc | rfl
    · exact splitSign_of_digit hc cs
    · rfl

theorem Sign.splitSign_digits {sign : List Char} {negative : Bool} (h : Sign sign negative)
    {ds : List Char} (hd : Digits ds) (hne : ds ≠ []) (cs : List Char) :
    Decimal.splitSign (sign ++ (ds ++ cs)) = (negative, ds ++ cs) := by
  cases ds with
  | nil => exact absurd rfl hne
  | cons c ds => exact h.splitSign (.inl (hd c (by simp))) _

theorem exponentOfChars?_eq_some_iff {cs : List Char} {e : Int} :
    exponentOfChars? cs = some e ↔ Exponent cs e := by
  constructor
  · intro h
    unfold exponentOfChars? at h
    split at h
    · cases h
      exact .absent
    · rename_i mark cs
      obtain ⟨sign, hsign, hcs⟩ := sign_splitSign cs
      split at h
      · rename_i hmark
        simp only at h
        split at h
        · cases h
        · rename_i hdigits
          simp only [Bool.or_eq_true, List.isEmpty_iff, Bool.not_eq_true', not_or, Bool.not_eq_false] at hdigits
          have hexponent := Exponent.marked hmark hsign (List.all_eq_true.1 hdigits.2) hdigits.1
          rw [← hcs] at hexponent
          split at h <;> rename_i hneg <;> cases h
          · rwa [if_pos hneg] at hexponent
          · rwa [if_neg hneg] at hexponent
      · cases h
  · rintro (_ | ⟨hmark, hsign, hd, hne⟩)
    · rfl
    · rename_i mark sign negative ds
      have hsplit := hsign.splitSign_digits hd hne []
      rw [List.append_nil] at hsplit
      unfold exponentOfChars?
      simp only [hmark, if_true, hsplit, List.isEmpty_eq_false_iff.2 hne, List.all_eq_true.2 hd]
      cases negative <;> rfl

theorem Exponent.noDigit {cs : List Char} {e : Int} (h : Exponent cs e) : NoDigit cs := by
  cases h with
  | absent => exact noDigit_nil
  | marked hmark =>
    rintro c ⟨⟩
    rcases hmark with rfl | rfl <;> rfl

theorem Exponent.head?_ne {cs : List Char} {e : Int} (h : Exponent cs e) : cs.head? ≠ some '.' := by
  cases h with
  | absent => simp
  | marked hmark => rcases hmark with rfl | rfl <;> simp

/-- Decimals are read by their grammar. -/
theorem ofChars?_eq_some_iff {cs : List Char} {d : Decimal} : ofChars? cs = some d ↔ Numeral cs d := by
  constructor
  · intro h
    obtain ⟨sign, hsign, hcs⟩ := sign_splitSign cs
    have hbody := (splitSign cs).2.takeWhile_append_dropWhile (p := Char.isDigit)
    unfold ofChars? at h
    simp only at h
    split at h
    · rename_i tail hpoint
      simp only [Option.ite_none_left_eq_some] at h
      obtain ⟨hsome, h⟩ := h
      obtain ⟨e, he, rfl⟩ := Option.map_eq_some_iff.1 h
      have hne : (splitSign cs).2.takeWhile Char.isDigit ≠ [] ∨ tail.takeWhile Char.isDigit ≠ [] := by
        by_contra! hnone
        exact hsome (by rw [hnone.1, hnone.2]; rfl)
      have hnumeral := Numeral.point hsign (digits_takeWhile _) (digits_takeWhile tail) hne
        (exponentOfChars?_eq_some_iff.1 he)
      rwa [List.takeWhile_append_dropWhile, ← hpoint, hbody, ← hcs] at hnumeral
    · simp only [Option.ite_none_left_eq_some] at h
      obtain ⟨hsome, h⟩ := h
      obtain ⟨e, he, rfl⟩ := Option.map_eq_some_iff.1 h
      have hne : (splitSign cs).2.takeWhile Char.isDigit ≠ [] := by
        intro hnone
        exact hsome (by rw [hnone]; rfl)
      have hnumeral := Numeral.whole hsign (digits_takeWhile _) hne (exponentOfChars?_eq_some_iff.1 he)
      rw [hbody, ← hcs] at hnumeral
      simpa using hnumeral
  · rintro (⟨hsign, hd, hne, he⟩ | ⟨hsign, hd, hd', hne, he⟩)
    · rw [ofChars?_whole (hsign.splitSign_digits hd hne _) hd hne he.noDigit he.head?_ne,
        exponentOfChars?_eq_some_iff.2 he]
      rfl
    · rename_i sign negative ds es cs e
      have hsplit : splitSign (sign ++ (ds ++ '.' :: (es ++ cs))) = (negative, ds ++ '.' :: (es ++ cs)) := by
        cases ds with
        | nil => exact hsign.splitSign (.inr rfl) _
        | cons c ds => exact hsign.splitSign (.inl (hd c (by simp))) _
      rw [ofChars?_point ds es cs hsplit hd hd' hne he.noDigit, exponentOfChars?_eq_some_iff.2 he]
      rfl

theorem ofChars?_eq_none_iff {cs : List Char} : ofChars? cs = none ↔ ∀ d, ¬ Numeral cs d := by
  simp only [Option.eq_none_iff_forall_ne_some, ne_eq, ofChars?_eq_some_iff]

end Decimal

namespace Reader

open Decimal (Sign Digits Numeral ofDigits)

variable {ν : Type} [Scalar ν]

/-! ## Leaves -/

/-- A whole number of 64 bits: digits behind an optional sign. -/
def Whole (cs : List Char) (n : Int64) : Prop :=
  ∃ sign negative ds, Sign sign negative ∧ cs = sign ++ ds ∧ Digits ds ∧ ds ≠ [] ∧
    n.toInt = if negative then -(ofDigits ds : Int) else ofDigits ds

/-- A token that starts like a number: with an optional sign, an optional point and a digit. -/
def StartsNumeric (cs : List Char) : Prop :=
  ∃ sign negative point c rest, Sign sign negative ∧ (point = [] ∨ point = ['.']) ∧
    c.isDigit = true ∧ cs = sign ++ (point ++ c :: rest)

/-- The leaf that a token stands for. -/
inductive Denotes : List Char → Atom ν → Prop
  | var {name : List Char} : name ≠ [] → Denotes ('$' :: name) (.var (String.ofList name))
  | int {cs : List Char} {n : Int64} : Whole cs n → Denotes cs (.int n)
  | float {cs : List Char} {d : Decimal} : (∀ n, ¬ Whole cs n) → StartsNumeric cs → Numeral cs d →
      Denotes cs (.float (Scalar.ofDecimal d))
  | symbol {cs : List Char} : cs.head? ≠ some '$' → (∀ n, ¬ Whole cs n) →
      (StartsNumeric cs → ∀ d, ¬ Numeral cs d) → Denotes cs (.symbol (String.ofList cs))

theorem int?_eq_some_iff {cs : List Char} {n : Int64} : int? cs = some n ↔ Whole cs n := by
  constructor
  · intro h
    obtain ⟨sign, hsign, hcs⟩ := Decimal.sign_splitSign cs
    unfold int? at h
    simp only [Option.ite_none_left_eq_some, Option.ite_none_right_eq_some, Option.some.injEq,
      Bool.or_eq_true, List.isEmpty_iff, Bool.not_eq_true', not_or, Bool.not_eq_false] at h
    obtain ⟨⟨hne, hdigits⟩, ⟨hlow, hhigh⟩, rfl⟩ := h
    refine ⟨sign, _, _, hsign, hcs, List.all_eq_true.1 hdigits, hne, ?_⟩
    rw [Int64.toInt_ofInt_of_le]
    · exact hlow
    · exact hhigh.trans_lt (by decide)
  · rintro ⟨sign, negative, ds, hsign, rfl, hd, hne, hn⟩
    have hsplit := hsign.splitSign_digits hd hne []
    rw [List.append_nil] at hsplit
    unfold int?
    rw [hsplit]
    simp only [List.isEmpty_eq_false_iff.2 hne, List.all_eq_true.2 hd, Bool.not_true, Bool.or_self,
      Bool.false_eq_true, if_false, ← hn]
    rw [if_pos ⟨n.minValue_le_toInt, n.toInt_le⟩, Int64.ofInt_toInt]

theorem int?_eq_none_iff {cs : List Char} : int? cs = none ↔ ∀ n, ¬ Whole cs n := by
  simp only [Option.eq_none_iff_forall_ne_some, ne_eq, int?_eq_some_iff]

theorem startsNumeric_of_numeral {cs : List Char} {d : Decimal} (h : Numeral cs d) : StartsNumeric cs := by
  have hcons {ds : List Char} (hne : ds ≠ []) : ∃ c rest, ds = c :: rest := List.exists_cons_of_ne_nil hne
  rcases h with ⟨hsign, hd, hne, -⟩ | ⟨hsign, hd, hd', hne, -⟩
  · obtain ⟨c, rest, rfl⟩ := hcons hne
    exact ⟨_, _, [], c, _, hsign, .inl rfl, hd c (by simp), rfl⟩
  · rename_i ds es cs e
    cases ds with
    | cons c rest => exact ⟨_, _, [], c, _, hsign, .inl rfl, hd c (by simp), rfl⟩
    | nil =>
      obtain ⟨c, rest, rfl⟩ := hcons (hne.resolve_left fun h => h rfl)
      exact ⟨_, _, ['.'], c, _, hsign, .inr rfl, hd' c (by simp), rfl⟩

theorem head?_ne_of_startsNumeric {cs : List Char} (h : StartsNumeric cs) : cs.head? ≠ some '$' := by
  obtain ⟨sign, negative, point, c, rest, hsign, hpoint, hc, rfl⟩ := h
  rcases hsign <;> rcases hpoint with rfl | rfl <;> simp
  rintro rfl
  cases hc

theorem startsNumeric_of_whole {cs : List Char} {n : Int64} (h : Whole cs n) : StartsNumeric cs := by
  obtain ⟨sign, negative, ds, hsign, rfl, hd, hne, -⟩ := h
  obtain ⟨c, rest, rfl⟩ := List.exists_cons_of_ne_nil hne
  exact ⟨_, _, [], c, rest, hsign, .inl rfl, hd c (by simp), rfl⟩

theorem leaf?_of_head? {cs : List Char} (h : cs.head? ≠ some '$') :
    (leaf? cs : Option (Atom ν)) = match int? cs, Decimal.ofChars? cs with
      | some n, _ => some (.int n)
      | none, some d => some (.float (Scalar.ofDecimal d))
      | none, none => some (.symbol (String.ofList cs)) := by
  unfold leaf?
  rw [Decimal.decimal?_eq]
  split
  · exact absurd rfl h
  · exact absurd rfl h
  · rfl

/-- Leaves are found by the grammar. -/
theorem leaf?_eq_some_iff {cs : List Char} {a : Atom ν} : leaf? cs = some a ↔ Denotes cs a := by
  constructor
  · intro h
    rcases leaf?_cases h with ⟨name, hne, rfl, rfl⟩ | ⟨n, hn, rfl⟩ | ⟨d, hn, hd, rfl⟩ | ⟨hhead, hn, hd, rfl⟩
    · exact .var hne
    · exact .int (int?_eq_some_iff.1 hn)
    · have hnumeral := Decimal.ofChars?_eq_some_iff.1 hd
      exact .float (int?_eq_none_iff.1 hn) (startsNumeric_of_numeral hnumeral) hnumeral
    · exact .symbol hhead (int?_eq_none_iff.1 hn) fun _ => Decimal.ofChars?_eq_none_iff.1 hd
  · rintro (hne | hn | ⟨hn, hnumeric, hd⟩ | ⟨hhead, hn, hd⟩)
    · rename_i name
      obtain ⟨c, name, rfl⟩ := List.exists_cons_of_ne_nil hne
      rfl
    · rw [leaf?_of_head? (head?_ne_of_startsNumeric (startsNumeric_of_whole hn)), int?_eq_some_iff.2 hn]
    · rw [leaf?_of_head? (head?_ne_of_startsNumeric hnumeric), int?_eq_none_iff.2 hn,
        Decimal.ofChars?_eq_some_iff.2 hd]
    · -- a decimal starts like a number, so that condition costs nothing
      have hnone := Decimal.ofChars?_eq_none_iff.2 fun d hd' => hd (startsNumeric_of_numeral hd') d hd'
      rw [leaf?_of_head? hhead, int?_eq_none_iff.2 hn, hnone]

/-! ## Texts -/

/-- Space between items: blanks, and comments that run to the end of a line. -/
inductive Gap : List Char → Prop
  | nil : Gap []
  | blank {c : Char} {cs : List Char} : Text.isBlank c = true → Gap cs → Gap (c :: cs)
  | comment {line cs : List Char} : '\n' ∉ line → Gap cs → Gap (';' :: (line ++ '\n' :: cs))

/-- Space behind the last item, where a comment may run to the end of the text. -/
inductive LastGap : List Char → Prop
  | gap {cs : List Char} : Gap cs → LastGap cs
  | comment {cs line : List Char} : Gap cs → '\n' ∉ line → LastGap (cs ++ ';' :: line)

/-- The inside of a quoted text, and the text that it stands for. -/
inductive Quoted : List Char → List Char → Prop
  | nil : Quoted [] []
  | plain {c : Char} {cs text : List Char} : c ≠ '"' → c ≠ '\\' → Quoted cs text →
      Quoted (c :: cs) (c :: text)
  | escape {c d : Char} {cs text : List Char} :
      (c, d) ∈ [('"', '"'), ('\\', '\\'), ('n', '\n'), ('t', '\t')] → Quoted cs text →
      Quoted ('\\' :: c :: cs) (d :: text)

/-- Two texts that may stand side by side: where they meet, no token goes on. -/
def Apart (cs rest : List Char) : Prop :=
  ∀ c ∈ cs.getLast?, ∀ d ∈ rest.head?, isDelimiter c = true ∨ isDelimiter d = true

mutual

/-- One item that stands for an atom. -/
inductive Item : List Char → Atom ν → Prop
  | token {cs : List Char} {a : Atom ν} : cs ≠ [] → (∀ c ∈ cs, isDelimiter c = false) →
      Denotes cs a → Item cs a
  | quoted {cs text : List Char} : Quoted cs text →
      Item ('"' :: (cs ++ ['"'])) (.str (String.ofList text))
  | group {cs : List Char} {l : List (Atom ν)} : Row cs l → Item ('(' :: (cs ++ [')'])) (.expr l)

/-- Items with gaps between them, as they stand inside a group. -/
inductive Row : List Char → List (Atom ν) → Prop
  | nil {cs : List Char} : Gap cs → Row cs []
  | cons {gap cs rest : List Char} {a : Atom ν} {l : List (Atom ν)} : Gap gap → Item cs a →
      Apart cs rest → Row rest l → Row (gap ++ (cs ++ rest)) (a :: l)

end

/-- A whole text. A directive is a group behind `!`, so the token `!` may not stand before a group. -/
inductive Layout : List Char → List (Statement ν) → Prop
  | nil {cs : List Char} : LastGap cs → Layout cs []
  | assert {gap cs rest : List Char} {a : Atom ν} {l : List (Statement ν)} : Gap gap → Item cs a →
      Apart cs rest → (cs = ['!'] → rest.head? ≠ some '(') → Layout rest l →
      Layout (gap ++ (cs ++ rest)) (.assert a :: l)
  | evaluate {gap cs rest : List Char} {children : List (Atom ν)} {l : List (Statement ν)} : Gap gap →
      Row cs children → Layout rest l →
      Layout (gap ++ ('!' :: '(' :: (cs ++ ')' :: rest))) (.evaluate (.expr children) :: l)

end Reader

end Atomspace
