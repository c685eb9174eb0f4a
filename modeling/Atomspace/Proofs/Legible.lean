import Atomspace.Proofs.Identity
import Atomspace.Proofs.Numerals
import Atomspace.Reader
/-!
# Keys of legible atoms

An atom is *legible* when its leaves can be written in the surface syntax: names are tokens, and a
symbol is a token that stands for it. Legible atoms are a faithful set (`faithful_legible`): although
a symbol may be spelled like the tag of a number or a text, no key of a legible atom goes on where
another one ends (`Legible.key_append_inj`).
-/

namespace Atomspace

namespace Text

/-! ## Quoted texts -/

/-- The characters that a backslash and one other character stand for. -/
def shortEscapes : List (Char × Char) :=
  [('"', '"'), ('\\', '\\'), ('\n', 'n'), ('\t', 't'), ('\r', 'r'), ('\x00', '0')]

theorem keyEscape_cases (c : Char) :
    (∃ d, (c, d) ∈ shortEscapes ∧ keyEscape c = ['\\', d]) ∨
      (c ≠ '\\' ∧ c ≠ '"' ∧ keyEscape c = [c]) ∨
      keyEscape c = '\\' :: 'u' :: '\x7b' :: (Nat.toDigits 16 c.toNat ++ ['\x7d']) := by
  unfold keyEscape
  split
  · exact .inl ⟨'"', by decide, rfl⟩
  · exact .inl ⟨'\\', by decide, rfl⟩
  · exact .inl ⟨'n', by decide, rfl⟩
  · exact .inl ⟨'t', by decide, rfl⟩
  · exact .inl ⟨'r', by decide, rfl⟩
  · exact .inl ⟨'0', by decide, rfl⟩
  · rename_i hquote hslash _ _ _ _
    split
    · exact .inr (.inl ⟨hslash, hquote, rfl⟩)
    · exact .inr (.inr rfl)

theorem shortEscapes_inj : ∀ p ∈ shortEscapes, ∀ q ∈ shortEscapes, p.2 = q.2 → p = q := by
  decide

theorem ne_of_mem_shortEscapes : ∀ p ∈ shortEscapes, p.2 ≠ 'u' := by
  decide

theorem digitChar_inj : ∀ m < 16, ∀ n < 16, Nat.digitChar m = Nat.digitChar n → m = n := by
  decide

theorem digitChar_ne : ∀ n < 16, Nat.digitChar n ≠ '\x7d' := by
  decide

theorem exists_digitChar (n : Nat) : ∀ c ∈ Nat.toDigits 16 n, ∃ m < 16, c = Nat.digitChar m := by
  induction n using Nat.strongRecOn with
  | ind n ih =>
    rw [Nat.toDigits_eq_if (by decide)]
    split
    · rename_i h
      exact List.forall_mem_singleton.2 ⟨n, h, rfl⟩
    · rename_i h
      exact List.forall_mem_append.2 ⟨ih (n / 16) (by omega),
        List.forall_mem_singleton.2 ⟨_, Nat.mod_lt _ (by decide), rfl⟩⟩

theorem ne_of_mem_toDigits (n : Nat) : ∀ c ∈ Nat.toDigits 16 n, c ≠ '\x7d' := by
  intro c hc
  obtain ⟨m, hm, rfl⟩ := exists_digitChar n c hc
  exact digitChar_ne m hm

theorem toDigits_inj {m n : Nat} (h : Nat.toDigits 16 m = Nat.toDigits 16 n) : m = n := by
  induction m using Nat.strongRecOn generalizing n with
  | ind m ih =>
    have hne := fun k => List.length_pos_iff.2 (Nat.toDigits_ne_nil (n := k) (b := 16))
    rw [Nat.toDigits_eq_if (n := m) (by decide), Nat.toDigits_eq_if (n := n) (by decide)] at h
    split at h <;> rename_i hm <;> split at h <;> rename_i hn
    · exact digitChar_inj m hm n hn (List.singleton_inj.1 h)
    · have hlen := congrArg List.length h
      have hpos := hne (n / 16)
      simp only [List.length_append, List.length_singleton] at hlen
      omega
    · have hlen := congrArg List.length h
      have hpos := hne (m / 16)
      simp only [List.length_append, List.length_singleton] at hlen
      omega
    · obtain ⟨hdiv, hmod⟩ := List.append_inj' h rfl
      have hdiv := ih (m / 16) (by omega) hdiv
      have hmod := digitChar_inj _ (Nat.mod_lt _ (by decide)) _ (Nat.mod_lt _ (by decide))
        (List.singleton_inj.1 hmod)
      omega

/-- The escaped form of a character is told apart from what follows it. -/
theorem keyEscape_append_inj {c d : Char} {r t : List Char} (h : keyEscape c ++ r = keyEscape d ++ t) :
    c = d ∧ r = t := by
  rcases keyEscape_cases c with ⟨e, hc, hce⟩ | ⟨hslash, -, hce⟩ | hce <;>
    rcases keyEscape_cases d with ⟨e', hd, hde⟩ | ⟨hslash', -, hde⟩ | hde <;>
    rw [hce, hde] at h
  · cases h
    exact ⟨congrArg Prod.fst (shortEscapes_inj _ hc _ hd rfl), rfl⟩
  · exact absurd (List.cons.inj h).1.symm hslash'
  · cases h
    exact absurd rfl (ne_of_mem_shortEscapes _ hc)
  · exact absurd (List.cons.inj h).1 hslash
  · cases h
    exact ⟨rfl, rfl⟩
  · exact absurd (List.cons.inj h).1 hslash
  · cases h
    exact absurd rfl (ne_of_mem_shortEscapes _ hd)
  · exact absurd (List.cons.inj h).1.symm hslash'
  · have hhex : Nat.toDigits 16 c.toNat ++ '\x7d' :: r = Nat.toDigits 16 d.toNat ++ '\x7d' :: t := by
      simpa using h
    obtain ⟨hdigits, hrest⟩ := Atom.span_append_inj (p := fun c => c ≠ '\x7d')
      (fun x hx => decide_eq_true (ne_of_mem_toDigits _ x hx))
      (fun x hx => decide_eq_true (ne_of_mem_toDigits _ x hx))
      (fun x hx => by cases hx; rfl) (fun x hx => by cases hx; rfl) hhex
    exact ⟨Char.toNat_inj.1 (toDigits_inj hdigits), (List.cons.inj hrest).2⟩

theorem keyEscape_append_ne (c : Char) (r t : List Char) : keyEscape c ++ r ≠ '"' :: t := by
  intro h
  rcases keyEscape_cases c with ⟨d, -, hc⟩ | ⟨-, hquote, hc⟩ | hc <;> rw [hc] at h
  · cases h
  · exact hquote (List.cons.inj h).1
  · cases h

/-- A quoted text ends at its first quotation mark without a backslash. -/
theorem flatMap_keyEscape_inj {v w r t : List Char}
    (h : v.flatMap keyEscape ++ '"' :: r = w.flatMap keyEscape ++ '"' :: t) : v = w ∧ r = t := by
  induction v generalizing w with
  | nil =>
    cases w with
    | nil => exact ⟨rfl, (List.cons.inj h).2⟩
    | cons d w =>
      rw [List.flatMap_cons, List.append_assoc] at h
      exact absurd h.symm (keyEscape_append_ne d _ r)
  | cons c v ih =>
    cases w with
    | nil =>
      rw [List.flatMap_cons, List.append_assoc] at h
      exact absurd h (keyEscape_append_ne c _ t)
    | cons d w =>
      rw [List.flatMap_cons, List.flatMap_cons, List.append_assoc, List.append_assoc] at h
      obtain ⟨rfl, hrest⟩ := keyEscape_append_inj h
      obtain ⟨rfl, rfl⟩ := ih hrest
      exact ⟨rfl, rfl⟩

theorem toList_keyQuote (s : String) : (keyQuote s).toList = '"' :: (s.toList.flatMap keyEscape ++ ['"']) := by
  simp [keyQuote, quote]

theorem keyQuote_append_inj {v w : String} {r t : List Char}
    (h : (keyQuote v).toList ++ r = (keyQuote w).toList ++ t) : v = w ∧ r = t := by
  rw [toList_keyQuote, toList_keyQuote] at h
  obtain ⟨hvw, hrt⟩ := flatMap_keyEscape_inj (by simpa using h)
  exact ⟨String.toList_inj.1 hvw, hrt⟩

end Text

namespace Reader

/-! ## Tokens -/

theorem isDelimiter_of_isDigit {c : Char} (h : c.isDigit = true) : isDelimiter c = false := by
  have hrange : 48 ≤ c.toNat ∧ c.toNat ≤ 57 := by
    simpa [Char.isDigit, UInt32.le_iff_toNat_le] using h
  have hblank : Text.isBlank c = false := by
    simp [Text.isBlank]
    omega
  rw [isDelimiter, hblank]
  simp only [Bool.false_or, Bool.or_eq_false_iff, beq_eq_false_iff_ne]
  refine ⟨⟨⟨?_, ?_⟩, ?_⟩, ?_⟩ <;>
  · rintro rfl
    cases h

theorem isDelimiter_of_numeralChar {c : Char} (h : Decimal.numeralChar c = true) :
    isDelimiter c = false := by
  simp only [Decimal.numeralChar, Bool.or_eq_true, beq_iff_eq] at h
  rcases h with ((((h | rfl) | rfl) | rfl) | rfl) | rfl
  · exact isDelimiter_of_isDigit h
  all_goals decide

theorem wordChar_of_not_isDelimiter {c : Char} (h : isDelimiter c = false) :
    Atom.wordChar c = true := by
  simp only [Atom.wordChar, Bool.and_eq_true, decide_eq_true_eq]
  refine ⟨⟨?_, ?_⟩, ?_⟩ <;>
  · rintro rfl
    cases h

theorem numeralChar_of_mem_toString (n : Int64) :
    ∀ c ∈ (toString n).toList, Decimal.numeralChar c = true := by
  intro c hc
  have hread := Decimal.exponentOfChars?_toString n.toInt
  exact Decimal.numeralChar_of_exponentOfChars? hread c (List.mem_cons_of_mem _ hc)

theorem int?_toString (n : Int64) : int? (toString n).toList = some n := by
  have hsplit := Decimal.splitSign_toString n.toInt
  have hdigits : (Nat.toDigits 10 n.toInt.natAbs).all Char.isDigit = true :=
    List.all_eq_true.2 (Decimal.digits_toDigits _)
  have hvalue : (if decide (n.toInt < 0) = true then -(n.toInt.natAbs : Int) else n.toInt.natAbs) = n.toInt := by
    split <;> rename_i h <;> simp only [decide_eq_true_eq] at h <;> omega
  unfold int?
  rw [show toString n = toString n.toInt from rfl, hsplit]
  simp only [hdigits, Decimal.ofDigits_toDigits, hvalue, List.isEmpty_eq_false_iff.2 Nat.toDigits_ne_nil]
  rw [if_neg (by decide), if_pos ⟨n.minValue_le_toInt, n.toInt_le⟩, Int64.ofInt_toInt]

variable {ν : Type} [Scalar ν]

/-- What a token stands for. -/
theorem leaf?_cases {cs : List Char} {a : Atom ν} (h : leaf? cs = some a) :
    (∃ name, name ≠ [] ∧ cs = '$' :: name ∧ a = .var (String.ofList name)) ∨
      (∃ n, int? cs = some n ∧ a = .int n) ∨
      (∃ d, int? cs = none ∧ Decimal.ofChars? cs = some d ∧ a = .float (Scalar.ofDecimal d)) ∨
      (cs.head? ≠ some '$' ∧ int? cs = none ∧ Decimal.ofChars? cs = none ∧ a = .symbol (String.ofList cs)) := by
  unfold leaf? at h
  rw [Decimal.decimal?_eq] at h
  split at h
  · cases h
  · rename_i name hne
    cases h
    exact .inl ⟨name, by rintro rfl; exact hne rfl, rfl, rfl⟩
  · rename_i hempty hname
    right
    split at h
    · rename_i hn
      cases h
      exact .inl ⟨_, hn, rfl⟩
    · rename_i hn hd
      cases h
      exact .inr (.inl ⟨_, hn, hd, rfl⟩)
    · rename_i hn hd
      cases h
      refine .inr (.inr ⟨?_, hn, hd, rfl⟩)
      intro hhead
      obtain ⟨name, rfl⟩ := List.head?_eq_some_iff.1 hhead
      exact hname name rfl

/-- A token that stands for a symbol begins no variable and reads as no number. -/
theorem symbol_of_leaf? {cs : List Char} {name : String} (h : leaf? cs = some (.symbol name : Atom ν)) :
    cs.head? ≠ some '$' ∧ int? cs = none ∧ Decimal.ofChars? cs = none := by
  rcases leaf?_cases h with ⟨_, _, _, e⟩ | ⟨_, _, e⟩ | ⟨_, _, _, e⟩ | ⟨hhead, hint, hnumber, -⟩
  · cases e
  · cases e
  · cases e
  · exact ⟨hhead, hint, hnumber⟩

end Reader

namespace Atom

variable {ν : Type} [Scalar ν]

/-! ## Legible atoms -/

/-- The keys of the numbers in `N` are numerals, and tell them apart. -/
structure Numerals (N : Set ν) : Prop where
  reads {x : ν} : x ∈ N → ∃ d, Decimal.ofChars? (Scalar.key x).toList = some d
  inj {x y : ν} : x ∈ N → y ∈ N → Scalar.key x = Scalar.key y → x = y

/-- Whether no character of the name ends a token. -/
def Bare (name : String) : Prop := ∀ c ∈ name.toList, Reader.isDelimiter c = false

/-- An atom whose leaves can be written, with numbers of `N`: a symbol is a token that stands for
that symbol. -/
inductive Legible (N : Set ν) : Atom ν → Prop
  | symbol {name : String} : name ≠ "" → Bare name →
      Reader.leaf? name.toList = some (symbol name : Atom ν) → Legible N (symbol name)
  | var {name : String} : Bare name → Legible N (var name)
  | int (n : Int64) : Legible N (int n)
  | float {x : ν} : x ∈ N → Legible N (float x)
  | str (s : String) : Legible N (str s)
  | expr {l : List (Atom ν)} : (∀ a ∈ l, Legible N a) → Legible N (expr l)

/-- What may follow the key of a legible atom: nothing, the end of an expression, or a blank and the
key of another one. -/
inductive Rest (N : Set ν) : List Char → Prop
  | done : Rest N []
  | close (r : List Char) : Rest N (')' :: r)
  | next {a : Atom ν} {r : List Char} : Legible N a → Rest N r → Rest N (' ' :: (a.key.toList ++ r))

variable {N : Set ν}

theorem Rest.ends {r : List Char} (h : Rest N r) : Ends r := by
  cases h <;> simp [Ends]

theorem rest_keyRow {l : List (Atom ν)} (r : List Char) (hl : ∀ a ∈ l, Legible N a) :
    Rest N (if l.isEmpty then ')' :: r else ' ' :: keyRow ')' l r) := by
  induction l with
  | nil => exact .close r
  | cons a l ih =>
    rw [if_neg (by simp), keyRow_cons]
    exact .next (hl a (by simp)) (ih fun b hb => hl b (by simp [hb]))

theorem isWord_of_bare {name : String} (h : Bare name) : isWord name = true :=
  (isWord_iff name).2 fun c hc => Reader.wordChar_of_not_isDelimiter (h c hc)

theorem key_toList_int (n : Int64) :
    (int n : Atom ν).key.toList = '&' :: 'i' :: 'n' :: 't' :: ' ' :: (toString n).toList := by
  simp [key]

theorem key_toList_float (x : ν) : (float x).key.toList =
    '&' :: 'f' :: 'l' :: 'o' :: 'a' :: 't' :: ' ' :: (Scalar.key x).toList := by
  simp [key]

theorem key_toList_str (s : String) : (str s : Atom ν).key.toList =
    '&' :: 's' :: 't' :: 'r' :: ' ' :: (Text.keyQuote s).toList := by
  simp [key]

/-- The key of a legible atom that is no symbol begins with one of three characters. -/
theorem Legible.symbol_or_head {a : Atom ν} (ha : Legible N a) : (∃ name, a = .symbol name) ∨
    ∃ c cs, a.key.toList = c :: cs ∧ (c = '$' ∨ c = '(' ∨ c = '&') := by
  cases ha with
  | symbol => exact .inl ⟨_, rfl⟩
  | var => exact .inr ⟨_, _, key_toList_var _, .inl rfl⟩
  | int => exact .inr ⟨_, _, key_toList_int _, .inr (.inr rfl)⟩
  | float => exact .inr ⟨_, _, key_toList_float _, .inr (.inr rfl)⟩
  | str => exact .inr ⟨_, _, key_toList_str _, .inr (.inr rfl)⟩
  | expr => exact .inr ⟨_, _, key_toList_expr _, .inr (.inl rfl)⟩

/-- A symbol is told apart from variables and from whatever begins with the end of a token. -/
theorem Legible.symbol_append_ne {name : String} (h : Legible N (.symbol name)) {c : Char}
    (hc : c = '$' ∨ Reader.isDelimiter c = true) (r t : List Char) : name.toList ++ r ≠ c :: t := by
  cases h with
  | symbol hne hbare hleaf =>
    cases hname : name.toList with
    | nil => exact absurd (String.toList_eq_nil_iff.1 hname) hne
    | cons d cs =>
      rw [List.cons_append]
      intro e
      obtain rfl := (List.cons.inj e).1
      rcases hc with rfl | hc
      · rw [hname] at hleaf
        exact (Reader.symbol_of_leaf? hleaf).1 rfl
      · rw [hbare d (by simp [hname])] at hc
        cases hc

/-- The key of no legible atom begins like what reads as a number. -/
theorem Legible.numeral_append_ne {a : Atom ν} (ha : Legible N a) {p r t : List Char} (hr : Rest N r)
    (ht : Rest N t) (hne : p ≠ []) (hp : ∀ c ∈ p, Decimal.numeralChar c = true)
    (hleaf : ∀ name, Reader.leaf? p ≠ some (.symbol name : Atom ν)) : p ++ t ≠ a.key.toList ++ r := by
  intro h
  rcases ha.symbol_or_head with ⟨name, rfl⟩ | ⟨c, cs, hkey, hc⟩
  · cases ha with
    | symbol _ hbare hsymbol =>
      have hword : ∀ c ∈ p, wordChar c = true := fun c hc =>
        Reader.wordChar_of_not_isDelimiter (Reader.isDelimiter_of_numeralChar (hp c hc))
      obtain ⟨rfl, -⟩ := span_append_inj hword ((isWord_iff name).1 (isWord_of_bare hbare))
        ht.ends.not_wordChar hr.ends.not_wordChar h
      exact hleaf name hsymbol
  · cases p with
    | nil => exact hne rfl
    | cons d p =>
      rw [hkey] at h
      have hd := hp d (by simp)
      rw [(List.cons.inj h).1] at hd
      rcases hc with rfl | rfl | rfl <;> cases hd

/-- No key begins with a quotation mark. -/
theorem Legible.quote_append_ne {a : Atom ν} (ha : Legible N a) (p r : List Char) :
    '"' :: p ≠ a.key.toList ++ r := by
  intro h
  rcases ha.symbol_or_head with ⟨name, rfl⟩ | ⟨c, cs, hkey, hc⟩
  · exact ha.symbol_append_ne (.inr rfl) r p h.symm
  · rw [hkey] at h
    rw [← (List.cons.inj h).1] at hc
    revert hc
    decide

theorem Legible.close_append_ne {a : Atom ν} (ha : Legible N a) (r t : List Char) :
    a.key.toList ++ r ≠ ')' :: t := by
  intro h
  rcases ha.symbol_or_head with ⟨name, rfl⟩ | ⟨c, cs, hkey, hc⟩
  · exact ha.symbol_append_ne (.inr rfl) r t h
  · rw [hkey] at h
    rw [(List.cons.inj h).1] at hc
    revert hc
    decide

/-- A symbol is told apart from a tag with a payload, although the symbol may be spelled like the
tag: what stands behind the blank is the key of an atom, and no such key begins like the payload. -/
theorem Legible.tag_append_ne {name : String} (h : Legible N (.symbol name)) (tag : List Char)
    {p r : List Char} (htag : ∀ c ∈ tag, wordChar c = true) (hr : Rest N r)
    (hp : ∀ a r, Legible N a → Rest N r → p ≠ a.key.toList ++ r) : name.toList ++ r ≠ tag ++ ' ' :: p := by
  intro e
  cases h with
  | symbol _ hbare _ =>
    obtain ⟨-, hrest⟩ := span_append_inj ((isWord_iff name).1 (isWord_of_bare hbare)) htag
      hr.ends.not_wordChar (by simp [wordChar]) e
    cases hr with
    | done => cases hrest
    | close => cases hrest
    | next ha hr => exact hp _ _ ha hr (List.cons.inj hrest).2.symm

theorem Legible.int_append_ne (n : Int64) {t : List Char} (ht : Rest N t) (a : Atom ν) (r : List Char)
    (ha : Legible N a) (hr : Rest N r) : (toString n).toList ++ t ≠ a.key.toList ++ r := by
  refine ha.numeral_append_ne hr ht ?_ (Reader.numeralChar_of_mem_toString n) fun name h => ?_
  · intro h
    have hn := Reader.int?_toString n
    rw [h] at hn
    cases hn
  · have hn := (Reader.symbol_of_leaf? h).2.1
    rw [Reader.int?_toString] at hn
    cases hn

theorem Legible.float_append_ne (hN : Numerals N) {x : ν} (hx : x ∈ N) {t : List Char} (ht : Rest N t)
    (a : Atom ν) (r : List Char) (ha : Legible N a) (hr : Rest N r) :
    (Scalar.key x).toList ++ t ≠ a.key.toList ++ r := by
  obtain ⟨d, hd⟩ := hN.reads hx
  refine ha.numeral_append_ne hr ht ?_ (Decimal.numeralChar_of_ofChars? hd) fun name h => ?_
  · intro h
    rw [h] at hd
    cases hd
  · have hnone := (Reader.symbol_of_leaf? h).2.2
    rw [hd] at hnone
    cases hnone

theorem Rest.numeral_inj {p q r t : List Char} (hp : ∀ c ∈ p, Decimal.numeralChar c = true)
    (hq : ∀ c ∈ q, Decimal.numeralChar c = true) (hr : Rest N r) (ht : Rest N t)
    (h : p ++ r = q ++ t) : p = q ∧ r = t :=
  span_append_inj
    (fun c hc => Reader.wordChar_of_not_isDelimiter (Reader.isDelimiter_of_numeralChar (hp c hc)))
    (fun c hc => Reader.wordChar_of_not_isDelimiter (Reader.isDelimiter_of_numeralChar (hq c hc)))
    hr.ends.not_wordChar ht.ends.not_wordChar h

theorem Legible.symbol_key_inj (hN : Numerals N) {name : String} (h : Legible N (.symbol name))
    {b : Atom ν} (hb : Legible N b) {r t : List Char} (hr : Rest N r) (ht : Rest N t)
    (e : name.toList ++ r = b.key.toList ++ t) : .symbol name = b ∧ r = t := by
  cases hb with
  | symbol _ hbare' _ =>
    cases h with
    | symbol _ hbare _ =>
      obtain ⟨rfl, rfl⟩ := word_key_inj (isWord_of_bare hbare) (isWord_of_bare hbare') hr.ends ht.ends e
      exact ⟨rfl, rfl⟩
  | var =>
    rw [key_toList_var] at e
    exact absurd e (h.symbol_append_ne (.inl rfl) _ _)
  | int n =>
    rw [key_toList_int] at e
    exact absurd e (h.tag_append_ne ['&', 'i', 'n', 't'] (by simp [wordChar]) hr (int_append_ne n ht))
  | float hx =>
    rw [key_toList_float] at e
    exact absurd e (h.tag_append_ne ['&', 'f', 'l', 'o', 'a', 't'] (by simp [wordChar]) hr
      (float_append_ne hN hx ht))
  | str s =>
    rw [key_toList_str] at e
    refine absurd e (h.tag_append_ne ['&', 's', 't', 'r'] (by simp [wordChar]) hr fun a r ha _ => ?_)
    rw [Text.toList_keyQuote]
    exact ha.quote_append_ne _ r
  | expr =>
    rw [key_toList_expr] at e
    exact absurd e (h.symbol_append_ne (.inr rfl) _ _)

/-- No key of a legible atom goes on where another one ends. -/
theorem Legible.key_append_inj (hN : Numerals N) {a : Atom ν} (ha : Legible N a) :
    ∀ {b : Atom ν} {r t : List Char}, Legible N b → Rest N r → Rest N t →
      a.key.toList ++ r = b.key.toList ++ t → a = b ∧ r = t := by
  -- symbols apart, atoms of different kinds have keys that differ in the first two characters
  induction ha with
  | symbol hne hbare hleaf =>
    intro b r t hb hr ht h
    exact symbol_key_inj hN (.symbol hne hbare hleaf) hb hr ht h
  | @var name hbare =>
    intro b r t hb hr ht h
    cases hb with
    | symbol hne hbare' hleaf =>
      exact (symbol_key_inj hN (.symbol hne hbare' hleaf) (.var hbare) ht hr h.symm).imp Eq.symm Eq.symm
    | var hbare' =>
      rw [key_toList_var, key_toList_var] at h
      obtain ⟨rfl, rfl⟩ := word_key_inj (isWord_of_bare hbare) (isWord_of_bare hbare') hr.ends ht.ends
        (List.cons.inj h).2
      exact ⟨rfl, rfl⟩
    | int | float | str | expr =>
      simp [key_toList_var, key_toList_int, key_toList_float, key_toList_str, key_toList_expr] at h
  | int n =>
    intro b r t hb hr ht h
    cases hb with
    | symbol hne hbare hleaf =>
      exact (symbol_key_inj hN (.symbol hne hbare hleaf) (.int n) ht hr h.symm).imp Eq.symm Eq.symm
    | int m =>
      rw [key_toList_int, key_toList_int] at h
      obtain ⟨hnumeral, rfl⟩ := Rest.numeral_inj (Reader.numeralChar_of_mem_toString n)
        (Reader.numeralChar_of_mem_toString m) hr ht (by simpa using h)
      have hn := Reader.int?_toString n
      rw [hnumeral, Reader.int?_toString] at hn
      cases hn
      exact ⟨rfl, rfl⟩
    | var | float | str | expr =>
      simp [key_toList_int, key_toList_var, key_toList_float, key_toList_str, key_toList_expr] at h
  | @float x hx =>
    intro b r t hb hr ht h
    cases hb with
    | symbol hne hbare hleaf =>
      exact (symbol_key_inj hN (.symbol hne hbare hleaf) (.float hx) ht hr h.symm).imp Eq.symm Eq.symm
    | @float y hy =>
      rw [key_toList_float, key_toList_float] at h
      obtain ⟨_, hd⟩ := hN.reads hx
      obtain ⟨_, hd'⟩ := hN.reads hy
      obtain ⟨hnumeral, rfl⟩ := Rest.numeral_inj (Decimal.numeralChar_of_ofChars? hd)
        (Decimal.numeralChar_of_ofChars? hd') hr ht (by simpa using h)
      obtain rfl := hN.inj hx hy (String.toList_inj.1 hnumeral)
      exact ⟨rfl, rfl⟩
    | var | int | str | expr =>
      simp [key_toList_float, key_toList_var, key_toList_int, key_toList_str, key_toList_expr] at h
  | str s =>
    intro b r t hb hr ht h
    cases hb with
    | symbol hne hbare hleaf =>
      exact (symbol_key_inj hN (.symbol hne hbare hleaf) (.str s) ht hr h.symm).imp Eq.symm Eq.symm
    | str s' =>
      rw [key_toList_str, key_toList_str] at h
      obtain ⟨rfl, rfl⟩ := Text.keyQuote_append_inj (by simpa using h)
      exact ⟨rfl, rfl⟩
    | var | int | float | expr =>
      simp [key_toList_str, key_toList_var, key_toList_int, key_toList_float, key_toList_expr] at h
  | @expr l hl ih =>
    intro b r t hb hr ht h
    cases hb with
    | symbol hne hbare hleaf =>
      exact (symbol_key_inj hN (.symbol hne hbare hleaf) (.expr hl) ht hr h.symm).imp Eq.symm Eq.symm
    | @expr m hm =>
      rw [key_toList_expr, key_toList_expr] at h
      have hrow : keyRow ')' l r = keyRow ')' m t := by simpa [keyRow] using h
      obtain ⟨rfl, rfl⟩ := keyRow_inj (by decide) (fun _ ha => ha.close_append_ne)
        (fun l r hl _ => rest_keyRow r hl) hl hm hr ht (fun a ha b r t => ih a ha) hrow
      exact ⟨rfl, rfl⟩
    | var | int | float | str =>
      simp [key_toList_expr, key_toList_var, key_toList_int, key_toList_float, key_toList_str] at h

theorem Legible.eq_of_beq (hN : Numerals N) {a b : Atom ν} (ha : Legible N a) (hb : Legible N b)
    (h : (a == b) = true) : a = b :=
  (ha.key_append_inj hN hb .done .done (by rw [((beq_iff a b).1 h).2])).1

theorem Legible.bind {a : Atom ν} (ha : Legible N a) {f : String → Atom ν}
    (hf : ∀ x ∈ a.vars, Legible N (f x)) : Legible N (a.bind f) := by
  induction ha with
  | symbol hne hbare hleaf => exact .symbol hne hbare hleaf
  | @var name => exact hf name (by simp)
  | int n => exact .int n
  | float hx => exact .float hx
  | str s => exact .str s
  | @expr l _ ih =>
    rw [bind_expr]
    apply Legible.expr
    intro b hb
    obtain ⟨a, ha, rfl⟩ := List.mem_map.1 hb
    exact ih a ha fun x hx => hf x (vars_expr l ▸ List.mem_flatMap.2 ⟨a, ha, hx⟩)

theorem faithful_legible (hN : Numerals N) : Faithful {a : Atom ν | Legible N a} where
  part h ha := by
    cases h with
    | expr h => exact h _ ha
  bind ha hf := Legible.bind ha hf
  eq_of_beq ha hb := Legible.eq_of_beq hN ha hb

end Atom

end Atomspace
