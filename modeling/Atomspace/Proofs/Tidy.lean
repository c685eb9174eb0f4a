import Atomspace.Proofs.Legible
import Atomspace.Proofs.Lockstep
/-!
# Tidy atoms

Atoms of symbols, variables, numbers, texts, expressions and lists are *tidy* if brackets and blanks stand
around names only, and no symbol is spelled like a variable or like the word that opens the key of a number,
a text or a list. If the keys of the numbers are words that tell them apart (`Worded`), keys tell tidy atoms
apart (`Tidy.key_inj`), and what substitution, other names and the standard code make of tidy atoms is tidy.
-/

namespace Atomspace

variable {ν : Type}

namespace Atom

/-- Neither a blank nor a bracket of any kind. -/
def tidyChar (c : Char) : Bool :=
  wordChar c && c ≠ '[' && c ≠ ']'

/-- Whether all characters may stand in a name. -/
def isTidyWord (name : String) : Bool :=
  name.toList.all tidyChar

/-- The words that keys of grounded atoms begin with. -/
def tags : List String := ["&int", "&float", "&str", "&list"]

/-- Whether the name is one of a tidy symbol. -/
def isTidyName (name : String) : Bool :=
  isTidyWord name && name.toList.head?.any (· ≠ '$') && !tags.contains name

/-- An atom whose key shows what it is made of. Of numbers that are not whole it has those of a set. -/
inductive Tidy (N : Set ν) : Atom ν → Prop
  | symbol {name : String} : isTidyName name = true → Tidy N (symbol name)
  | var {name : String} : isTidyWord name = true → Tidy N (var name)
  | int (n : Int64) : Tidy N (int n)
  | float {x : ν} : x ∈ N → Tidy N (float x)
  | str (s : String) : Tidy N (str s)
  | expr {l : List (Atom ν)} : (∀ a ∈ l, Tidy N a) → Tidy N (expr l)
  | list {l : List (Atom ν)} : (∀ a ∈ l, Tidy N a) → Tidy N (list l)

variable {N : Set ν}

/-- An expression with a symbol for its head. -/
theorem Tidy.call {name : String} (h : isTidyName name = true) {l : List (Atom ν)} (hl : ∀ a ∈ l, Tidy N a) :
    Tidy N (.expr (.symbol name :: l)) :=
  .expr (List.forall_mem_cons.2 ⟨.symbol h, hl⟩)

theorem Tidy.triple {name : String} (h : isTidyName name = true) {a b : Atom ν} (ha : Tidy N a) (hb : Tidy N b) :
    Tidy N (.expr [.symbol name, a, b]) :=
  .call h (List.forall_mem_cons.2 ⟨ha, List.forall_mem_singleton.2 hb⟩)

/-! ## Names -/

theorem isTidyWord_iff (name : String) : isTidyWord name = true ↔ ∀ c ∈ name.toList, tidyChar c = true :=
  List.all_eq_true

theorem tidyName_cases {name : String} (h : isTidyName name = true) :
    isTidyWord name = true ∧ (∃ c cs, name.toList = c :: cs ∧ c ≠ '$' ∧ tidyChar c = true) ∧ name ∉ tags := by
  simp only [isTidyName, Bool.and_eq_true, Bool.not_eq_true', List.contains_eq_mem, decide_eq_false_iff_not] at h
  obtain ⟨⟨hword, hhead⟩, htag⟩ := h
  refine ⟨hword, ?_, htag⟩
  cases hc : name.toList with
  | nil =>
    rw [hc] at hhead
    cases hhead
  | cons c cs =>
    rw [hc] at hhead
    exact ⟨c, cs, rfl, by simpa using hhead, (isTidyWord_iff name).1 hword c (by simp [hc])⟩

/-- What may follow a key: nothing, a blank or a bracket that closes. -/
def Stops (r : List Char) : Prop := ∀ c ∈ r.head?, c = ' ' ∨ c = ')' ∨ c = ']'

theorem Stops.not_tidyChar {r : List Char} (h : Stops r) : ∀ c ∈ r.head?, tidyChar c = false := by
  intro c hc
  rcases h c hc with rfl | rfl | rfl <;> rfl

theorem tidyWord_inj {v w : String} {r t : List Char} (hv : isTidyWord v = true) (hw : isTidyWord w = true)
    (hr : Stops r) (ht : Stops t) (h : v.toList ++ r = w.toList ++ t) : v = w ∧ r = t := by
  obtain ⟨e, hrt⟩ := span_append_inj ((isTidyWord_iff v).1 hv) ((isTidyWord_iff w).1 hw) hr.not_tidyChar
    ht.not_tidyChar h
  exact ⟨String.toList_inj.1 e, hrt⟩

theorem tidyChar_of_numeralChar {c : Char} (h : Decimal.numeralChar c = true) : tidyChar c = true := by
  simp only [Decimal.numeralChar, Bool.or_eq_true, beq_iff_eq] at h
  rcases h with ((((h | rfl) | rfl) | rfl) | rfl) | rfl
  · have hdelimiter := Reader.wordChar_of_not_isDelimiter (Reader.isDelimiter_of_isDigit h)
    rw [tidyChar, hdelimiter]
    simp only [Bool.true_and, Bool.and_eq_true, decide_eq_true_eq]
    constructor <;>
    · rintro rfl
      cases h
  all_goals decide

theorem isTidyWord_numbered_iff (x : String) (n : Nat) :
    isTidyWord (numbered x n) = true ↔ isTidyWord x = true := by
  have hnumber : ∀ c ∈ '#' :: Nat.toDigits 10 n, tidyChar c = true := by
    refine List.forall_mem_cons.2 ⟨rfl, fun c hc => tidyChar_of_numeralChar ?_⟩
    simp [Decimal.numeralChar, Nat.isDigit_of_mem_toDigits (by decide) (by decide) hc]
  rw [isTidyWord_iff, isTidyWord_iff, toList_numbered, List.forall_mem_append]
  exact and_iff_left hnumber

/-! ## Keys -/

variable [Scalar ν]

/-- The keys of the numbers are words, and tell them apart. -/
structure Worded (N : Set ν) : Prop where
  word {x : ν} : x ∈ N → isTidyWord (Scalar.key x) = true
  inj {x y : ν} : x ∈ N → y ∈ N → Scalar.key x = Scalar.key y → x = y

theorem worded_empty : Worded (∅ : Set ν) :=
  ⟨nofun, nofun⟩

theorem key_toList_list (l : List (Atom ν)) :
    (list l).key.toList = '&' :: 'l' :: 'i' :: 's' :: 't' :: ' ' :: '[' :: keyRow ']' l [] := by
  simp [key, keys_eq_map, keyRow, Function.comp_def]

theorem keyRow_append (close : Char) (l : List (Atom ν)) (r : List Char) :
    keyRow close l [] ++ r = keyRow close l r := by
  simp [keyRow]

theorem stops_row {close : Char} (hclose : close = ')' ∨ close = ']') (l : List (Atom ν)) (r : List Char) :
    Stops (if l.isEmpty then close :: r else ' ' :: keyRow close l r) := by
  intro c hc
  split at hc <;> cases hc
  · exact .inr hclose
  · exact .inl rfl

/-- The key of a tidy atom is a word of its own, or begins with a sign that no symbol begins with, or with
a tag. -/
theorem Tidy.symbol_append_ne {name : String} (h : isTidyName name = true) {b : Atom ν} (hb : Tidy N b)
    (hother : ∀ other, b ≠ .symbol other) {r : List Char} (hr : Stops r) (t : List Char) :
    name.toList ++ r ≠ b.key.toList ++ t := by
  obtain ⟨hword, ⟨c, cs, hc, hdollar, htidy⟩, htag⟩ := tidyName_cases h
  intro e
  have hfirst {d : Char} {ds : List Char} (e : name.toList ++ r = d :: ds) : c = d := by
    rw [hc] at e
    exact (List.cons.inj e).1
  have hneTag (tag : String) (hmem : tag ∈ tags) {ds : List Char} (e : name.toList ++ r = tag.toList ++ ' ' :: ds) :
      False := by
    have htagWord : ∀ tag ∈ tags, isTidyWord tag = true := by decide
    have hblank : Stops (' ' :: ds) := fun c hc => by cases hc; exact .inl rfl
    obtain ⟨rfl, -⟩ := tidyWord_inj hword (htagWord tag hmem) hr hblank e
    exact htag hmem
  cases hb with
  | symbol => exact hother _ rfl
  | var => exact hdollar (hfirst (by rw [e, key_toList_var]; rfl))
  | int n => exact hneTag "&int" (by decide) (by rw [e, key_toList_int]; rfl)
  | float => exact hneTag "&float" (by decide) (by rw [e, key_toList_float]; rfl)
  | str s => exact hneTag "&str" (by decide) (by rw [e, key_toList_str]; rfl)
  | expr =>
    obtain rfl := hfirst (e.trans (by rw [key_toList_expr]; rfl))
    cases htidy
  | list => exact hneTag "&list" (by decide) (by rw [e, key_toList_list]; rfl)

theorem Tidy.key_append_ne {a : Atom ν} (ha : Tidy N a) {close : Char} (hclose : close = ')' ∨ close = ']')
    (r t : List Char) : a.key.toList ++ r ≠ close :: t := by
  intro e
  have hfirst {c : Char} {cs : List Char} (hkey : a.key.toList = c :: cs) : c = close := by
    rw [hkey] at e
    exact (List.cons.inj e).1
  cases ha with
  | @symbol name h =>
    obtain ⟨-, ⟨c, cs, hc, -, htidy⟩, -⟩ := tidyName_cases h
    obtain rfl := hfirst hc
    rcases hclose with rfl | rfl <;> cases htidy
  | var => rcases hclose with rfl | rfl <;> cases hfirst (key_toList_var _)
  | int n => rcases hclose with rfl | rfl <;> cases hfirst (key_toList_int n)
  | float => rcases hclose with rfl | rfl <;> cases hfirst (key_toList_float _)
  | str s => rcases hclose with rfl | rfl <;> cases hfirst (key_toList_str s)
  | expr => rcases hclose with rfl | rfl <;> cases hfirst (key_toList_expr _)
  | list => rcases hclose with rfl | rfl <;> cases hfirst (key_toList_list _)

theorem Tidy.symbol_key_inj {name : String} (h : isTidyName name = true) {b : Atom ν} (hb : Tidy N b)
    {r t : List Char} (hr : Stops r) (ht : Stops t) (e : name.toList ++ r = b.key.toList ++ t) :
    .symbol name = b ∧ r = t := by
  by_cases hother : ∃ other, b = .symbol other
  · obtain ⟨other, rfl⟩ := hother
    cases hb with
    | symbol h' =>
      obtain ⟨rfl, rfl⟩ := tidyWord_inj (tidyName_cases h).1 (tidyName_cases h').1 hr ht e
      exact ⟨rfl, rfl⟩
  · exact absurd e (hb.symbol_append_ne h (not_exists.1 hother) hr t)

theorem tidyRow_inj {close : Char} (hclose : close = ')' ∨ close = ']') {l m : List (Atom ν)} {r t : List Char}
    (hl : ∀ a ∈ l, Tidy N a) (hm : ∀ a ∈ m, Tidy N a) (hr : Stops r) (ht : Stops t)
    (ih : ∀ a ∈ l, ∀ {b : Atom ν} {r t : List Char}, Tidy N b → Stops r → Stops t →
      a.key.toList ++ r = b.key.toList ++ t → a = b ∧ r = t)
    (e : keyRow close l r = keyRow close m t) : l = m ∧ r = t :=
  keyRow_inj (by rcases hclose with rfl | rfl <;> decide) (fun _ ha => ha.key_append_ne hclose)
    (fun l r _ _ => stops_row hclose l r) hl hm hr ht (fun a ha b r t => ih a ha) e

/-- No key of a tidy atom goes on where another one ends. -/
theorem Tidy.key_append_inj (hN : Worded N) {a : Atom ν} (ha : Tidy N a) : ∀ {b : Atom ν} {r t : List Char},
    Tidy N b → Stops r → Stops t → a.key.toList ++ r = b.key.toList ++ t → a = b ∧ r = t := by
  induction ha with
  | symbol h => exact fun hb hr ht e => symbol_key_inj h hb hr ht e
  | var hword =>
    intro b r t hb hr ht e
    cases hb with
    | symbol h => exact (symbol_key_inj h (.var (N := N) hword) ht hr e.symm).imp Eq.symm Eq.symm
    | var hword' =>
      rw [key_toList_var, key_toList_var] at e
      obtain ⟨rfl, rfl⟩ := tidyWord_inj hword hword' hr ht (List.cons.inj e).2
      exact ⟨rfl, rfl⟩
    | int | float | str | expr | list =>
      simp [key_toList_var, key_toList_int, key_toList_float, key_toList_str, key_toList_expr, key_toList_list] at e
  | int n =>
    intro b r t hb hr ht e
    cases hb with
    | symbol h => exact (symbol_key_inj h (.int (N := N) n) ht hr e.symm).imp Eq.symm Eq.symm
    | int m =>
      rw [key_toList_int, key_toList_int] at e
      have htidy (k : Int64) : ∀ c ∈ (toString k).toList, tidyChar c = true := fun c hc =>
        tidyChar_of_numeralChar (Reader.numeralChar_of_mem_toString k c hc)
      obtain ⟨hsame, rfl⟩ := span_append_inj (htidy n) (htidy m) hr.not_tidyChar ht.not_tidyChar (by simpa using e)
      have hread := Reader.int?_toString n
      rw [hsame, Reader.int?_toString] at hread
      exact ⟨congrArg Atom.int (Option.some.inj hread).symm, rfl⟩
    | var | float | str | expr | list =>
      simp [key_toList_var, key_toList_int, key_toList_float, key_toList_str, key_toList_expr, key_toList_list] at e
  | float hx =>
    intro b r t hb hr ht e
    cases hb with
    | symbol h => exact (symbol_key_inj h (.float hx) ht hr e.symm).imp Eq.symm Eq.symm
    | float hy =>
      rw [key_toList_float, key_toList_float] at e
      obtain ⟨hsame, rfl⟩ := tidyWord_inj (hN.word hx) (hN.word hy) hr ht (by simpa using e)
      exact ⟨congrArg Atom.float (hN.inj hx hy hsame), rfl⟩
    | var | int | str | expr | list =>
      simp [key_toList_var, key_toList_int, key_toList_float, key_toList_str, key_toList_expr, key_toList_list] at e
  | str s =>
    intro b r t hb hr ht e
    cases hb with
    | symbol h => exact (symbol_key_inj h (.str (N := N) s) ht hr e.symm).imp Eq.symm Eq.symm
    | str s' =>
      rw [key_toList_str, key_toList_str] at e
      obtain ⟨rfl, rfl⟩ := Text.keyQuote_append_inj (by simpa using e)
      exact ⟨rfl, rfl⟩
    | var | int | float | expr | list =>
      simp [key_toList_var, key_toList_int, key_toList_float, key_toList_str, key_toList_expr, key_toList_list] at e
  | expr hl ih =>
    intro b r t hb hr ht e
    cases hb with
    | symbol h => exact (symbol_key_inj h (.expr hl) ht hr e.symm).imp Eq.symm Eq.symm
    | expr hm =>
      rw [key_toList_expr, key_toList_expr] at e
      obtain ⟨rfl, rfl⟩ := tidyRow_inj (.inl rfl) hl hm hr ht ih (by simpa [keyRow] using e)
      exact ⟨rfl, rfl⟩
    | var | int | float | str | list =>
      simp [key_toList_var, key_toList_int, key_toList_float, key_toList_str, key_toList_expr, key_toList_list] at e
  | list hl ih =>
    intro b r t hb hr ht e
    cases hb with
    | symbol h => exact (symbol_key_inj h (.list hl) ht hr e.symm).imp Eq.symm Eq.symm
    | list hm =>
      rw [key_toList_list, key_toList_list] at e
      simp only [List.cons_append, List.cons.injEq, true_and, keyRow_append] at e
      obtain ⟨rfl, rfl⟩ := tidyRow_inj (.inr rfl) hl hm hr ht ih e
      exact ⟨rfl, rfl⟩
    | var | int | float | str | expr =>
      simp [key_toList_var, key_toList_int, key_toList_float, key_toList_str, key_toList_expr, key_toList_list] at e

/-- Keys tell tidy atoms apart. -/
theorem Tidy.key_inj (hN : Worded N) {a b : Atom ν} (ha : Tidy N a) (hb : Tidy N b) (h : a.key = b.key) : a = b := by
  have hstops : Stops [] := by simp [Stops]
  exact (ha.key_append_inj hN hb hstops hstops (by rw [h])).1

/-! ## What stays tidy -/

omit [Scalar ν] in
theorem Tidy.bind {a : Atom ν} (ha : Tidy N a) {f : String → Atom ν} (hf : ∀ x ∈ a.vars, Tidy N (f x)) :
    Tidy N (a.bind f) := by
  induction ha with
  | symbol h => exact .symbol h
  | @var name => exact hf name (by simp)
  | int n => exact .int n
  | float hx => exact .float hx
  | str s => exact .str s
  | @expr l _ ih =>
    rw [bind_expr]
    refine .expr fun b hb => ?_
    obtain ⟨a, ha, rfl⟩ := List.mem_map.1 hb
    exact ih a ha fun x hx => hf x (vars_expr l ▸ List.mem_flatMap.2 ⟨a, ha, hx⟩)
  | list hl => exact .list hl

omit [Scalar ν] in
theorem Tidy.mapNames {a : Atom ν} (ha : Tidy N a) {f : String → String}
    (hf : ∀ x ∈ a.names, Tidy N (.var (f x) : Atom ν)) : Tidy N (a.mapNames f) := by
  induction ha with
  | symbol h => exact .symbol h
  | @var name => exact hf name List.mem_cons_self
  | int n => exact .int n
  | float hx => exact .float hx
  | str s => exact .str s
  | expr _ ih =>
    rw [names_expr] at hf
    rw [mapNames_expr]
    refine .expr fun b hb => ?_
    obtain ⟨a, ha, rfl⟩ := List.mem_map.1 hb
    exact ih a ha fun x hx => hf x (names_of_mem ha hx)
  | list _ ih =>
    rw [names_list] at hf
    rw [mapNames_list]
    refine .list fun b hb => ?_
    obtain ⟨a, ha, rfl⟩ := List.mem_map.1 hb
    exact ih a ha fun x hx => hf x (names_of_mem ha hx)

omit [Scalar ν] in
theorem Tidy.isTidyWord_of_mem_names {a : Atom ν} (ha : Tidy N a) {x : String} (hx : x ∈ a.names) :
    isTidyWord x = true := by
  induction ha with
  | var h =>
    obtain rfl := List.mem_singleton.1 hx
    exact h
  | expr _ ih =>
    rw [names_expr] at hx
    obtain ⟨a, ha, hx⟩ := List.mem_flatMap.1 hx
    exact ih a ha hx
  | list _ ih =>
    rw [names_list] at hx
    obtain ⟨a, ha, hx⟩ := List.mem_flatMap.1 hx
    exact ih a ha hx
  | symbol | int | float | str => cases hx

theorem ample_tidy (hN : Worded N) : Ample {a : Atom ν | Tidy N a} where
  faithful := {
    part := fun h ha => by
      cases h with
      | expr h => exact h _ ha
    bind := fun ha hf => ha.bind hf
    eq_of_beq := fun ha hb h => ha.key_inj hN hb ((beq_iff _ _).1 h).2 }
  expr := .expr
  renamed x n h := by
    cases h with
    | var h => exact .var ((isTidyWord_numbered_iff x n).2 h)
  equals := .symbol (by decide)
  internal x hx := .var (List.all_eq_true.1 (by decide : internalNames.all isTidyWord = true) x hx)

omit [Scalar ν] in
theorem tidy_truthAtom (b : Bool) : Tidy N (Native.truthAtom b : Atom ν) :=
  .symbol (by cases b <;> decide)

omit [Scalar ν] in
theorem closed_tidy : Native.Closed {a : Atom ν | Tidy ∅ a} where
  truth := tidy_truthAtom
  list := .list
  int _ := .int
  float h := by
    cases h with
    | float h => cases h

theorem sealed_tidy (hN : ∀ op ∈ Native.realOperations, ∀ x y : ν, Scalar.isFinite (op x y) = true → op x y ∈ N) :
    Native.Sealed {a : Atom ν | Tidy N a} where
  truth := tidy_truthAtom
  list := .list
  int _ := .int
  float _ op hop y z h := .float (hN op hop y z h)

end Atom

end Atomspace
