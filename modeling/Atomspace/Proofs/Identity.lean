import Atomspace.Proofs.Substitution
import Mathlib.Data.Set.Defs
/-!
# Keys that tell atoms apart

Atoms count as equal when they agree in kind and key. A set of atoms is *faithful* when it is
closed under parts and substitution and atoms of it that count as equal are equal.

The *plain* atoms are a faithful set (`faithful_plain`): symbols, variables and expressions whose
names have no blank and no bracket. No key of a plain atom goes on where another one ends
(`Plain.key_append_inj`).
-/

namespace Atomspace

variable {ν : Type}

namespace Atom

variable [Scalar ν]

theorem beq_iff (a b : Atom ν) : (a == b) = true ↔ a.kind = b.kind ∧ a.key = b.key := by
  show (decide (a.kind = b.kind) && a.key == b.key) = true ↔ _
  simp

theorem beq_symm {a b : Atom ν} (h : (a == b) = true) : (b == a) = true := by
  rw [beq_iff] at h ⊢
  exact ⟨h.1.symm, h.2.symm⟩

theorem beq_self (a : Atom ν) : (a == a) = true :=
  (beq_iff a a).2 ⟨rfl, rfl⟩

theorem ne_of_beq_eq_false {a b : Atom ν} (h : (a == b) = false) : a ≠ b := by
  rintro rfl
  rw [beq_self] at h
  cases h

/-- A set of atoms that has all parts of its atoms, and what they become when atoms of the set are
put in the place of their variables, and in which atoms that count as equal are equal. -/
structure Faithful (D : Set (Atom ν)) : Prop where
  part {l : List (Atom ν)} {a : Atom ν} : expr l ∈ D → a ∈ l → a ∈ D
  bind {a : Atom ν} {f : String → Atom ν} : a ∈ D → (∀ x ∈ a.vars, f x ∈ D) → a.bind f ∈ D
  eq_of_beq {a b : Atom ν} : a ∈ D → b ∈ D → (a == b) = true → a = b

theorem Faithful.var_mem {D : Set (Atom ν)} (hD : Faithful D) {a : Atom ν} (ha : a ∈ D) {x : String}
    (hx : x ∈ a.vars) : var x ∈ D := by
  induction a using induct with
  | var y =>
    obtain rfl : x = y := by simpa using hx
    exact ha
  | expr l ih =>
    obtain ⟨a, hl, hx⟩ := List.mem_flatMap.1 (vars_expr l ▸ hx)
    exact ih a hl (hD.part ha hl) hx
  | constant a hc => rw [vars_constant hc] at hx; cases hx

/-! ## Plain atoms -/

/-- Neither a blank nor a bracket. -/
def wordChar (c : Char) : Bool :=
  c ≠ ' ' && c ≠ '(' && c ≠ ')'

/-- Whether the name is one word. -/
def isWord (name : String) : Bool :=
  name.toList.all wordChar

/-- Whether the name is a word that is not empty and does not begin like a variable. -/
def isName (name : String) : Bool :=
  isWord name && name.toList.head?.any (· ≠ '$')

/-- An atom of symbols, variables and expressions alone, in which every name is one word. -/
inductive Plain : Atom ν → Prop
  | symbol {name : String} : isName name = true → Plain (symbol name)
  | var {name : String} : isWord name = true → Plain (var name)
  | expr {l : List (Atom ν)} : (∀ a ∈ l, Plain a) → Plain (expr l)

mutual

/-- Whether the atom is plain. -/
def isPlain : Atom ν → Bool
  | symbol name => isName name
  | var name => isWord name
  | expr children => allPlain children
  | _ => false

/-- Whether all atoms are plain. -/
def allPlain : List (Atom ν) → Bool
  | [] => true
  | a :: l => isPlain a && allPlain l

end

omit [Scalar ν] in
theorem allPlain_iff (l : List (Atom ν)) : allPlain l = true ↔ ∀ a ∈ l, isPlain a = true := by
  induction l with
  | nil => simp [allPlain]
  | cons a l ih => simp [allPlain, ih]

omit [Scalar ν] in
theorem isPlain_iff (a : Atom ν) : isPlain a = true ↔ Plain a := by
  constructor
  · induction a using induct with
    | var x => exact .var
    | expr l ih => exact fun h => .expr fun a ha => ih a ha ((allPlain_iff l).1 h a ha)
    | constant a hc =>
      intro h
      cases a with
      | symbol name => exact .symbol h
      | var name => cases hc
      | expr l => cases hc
      | _ => simp [isPlain] at h
  · intro h
    induction h with
    | symbol h | var h => exact h
    | expr _ ih => exact (allPlain_iff _).2 ih

instance (a : Atom ν) : Decidable (Plain a) := decidable_of_iff _ (isPlain_iff a)

theorem isWord_iff (name : String) : isWord name = true ↔ ∀ c ∈ name.toList, wordChar c = true :=
  List.all_eq_true

theorem exists_cons_of_isName {name : String} (h : isName name = true) :
    ∃ c cs, name.toList = c :: cs ∧ c ≠ '$' ∧ wordChar c = true := by
  obtain ⟨hword, hhead⟩ := Bool.and_eq_true_iff.1 h
  cases hc : name.toList with
  | nil =>
    rw [hc] at hhead
    cases hhead
  | cons c cs =>
    rw [hc] at hhead
    exact ⟨c, cs, rfl, by simpa using hhead, (isWord_iff name).1 hword c (by simp [hc])⟩

theorem isWord_of_isName {name : String} (h : isName name = true) : isWord name = true :=
  (Bool.and_eq_true_iff.1 h).1

/-- What may follow a key: nothing, a blank or the end of an expression. -/
def Ends (r : List Char) : Prop := ∀ c ∈ r.head?, c = ' ' ∨ c = ')'

theorem Ends.not_wordChar {r : List Char} (h : Ends r) : ∀ c ∈ r.head?, wordChar c = false := by
  intro c hc
  rcases h c hc with rfl | rfl <;> rfl

/-- A row of characters of one sort is told apart from what follows it. -/
theorem span_append_inj {p : Char → Bool} {v w r t : List Char} (hv : ∀ c ∈ v, p c = true)
    (hw : ∀ c ∈ w, p c = true) (hr : ∀ c ∈ r.head?, p c = false) (ht : ∀ c ∈ t.head?, p c = false)
    (h : v ++ r = w ++ t) : v = w ∧ r = t := by
  induction v generalizing w with
  | nil =>
    cases w with
    | nil => exact ⟨rfl, h⟩
    | cons c w =>
      subst h
      cases (hr c rfl).symm.trans (hw c (by simp))
  | cons c v ih =>
    cases w with
    | nil =>
      subst h
      cases (ht c rfl).symm.trans (hv c (by simp))
    | cons d w =>
      rw [List.cons_append, List.cons_append] at h
      obtain ⟨rfl, htail⟩ := List.cons.inj h
      obtain ⟨rfl, rfl⟩ := ih (fun d hd => hv d (by simp [hd])) (fun d hd => hw d (by simp [hd])) htail
      exact ⟨rfl, rfl⟩

theorem toList_numbered (x : String) (n : Nat) :
    (numbered x n).toList = x.toList ++ '#' :: Nat.toDigits 10 n := by
  simp [numbered, Nat.toList_repr]

theorem mem_toList_numbered (x : String) (n : Nat) : '#' ∈ (numbered x n).toList := by
  simp [toList_numbered]

/-- A renamed variable tells its name and its number. -/
theorem numbered_eq_iff {x y : String} {m n : Nat} : numbered x m = numbered y n ↔ x = y ∧ m = n := by
  constructor
  · intro h
    have hdigit (k : Nat) : ∀ c ∈ (Nat.toDigits 10 k).reverse, c.isDigit = true := fun c hc =>
      Nat.isDigit_of_mem_toDigits (by decide) (by decide) (List.mem_reverse.1 hc)
    have hlist := congrArg (List.reverse ∘ String.toList) h
    simp only [Function.comp, toList_numbered, List.reverse_append, List.reverse_cons,
      List.append_assoc, List.singleton_append] at hlist
    -- read from the end, the number goes as far as there are digits
    obtain ⟨hnumber, hname⟩ := span_append_inj (hdigit m) (hdigit n)
      (fun c hc => by cases hc; rfl) (fun c hc => by cases hc; rfl) hlist
    refine ⟨String.toList_inj.1 (List.reverse_inj.1 (List.cons.inj hname).2), ?_⟩
    have := congrArg (fun ds => Nat.ofDigitChars 10 ds 0) (List.reverse_inj.1 hnumber)
    simpa using this
  · rintro ⟨rfl, rfl⟩
    rfl

theorem key_toList_var (name : String) : (var name : Atom ν).key.toList = '$' :: name.toList := by
  simp [key]

theorem var_beq_eq_false {x : String} {a : Atom ν} (h : x ∉ a.vars) : (var x == a) = false := by
  rw [Bool.eq_false_iff, ne_eq, beq_iff]
  rintro ⟨hkind, hkey⟩
  cases a with
  | var y =>
    have hlist := congrArg String.toList hkey
    rw [key_toList_var, key_toList_var, List.cons.injEq, String.toList_inj] at hlist
    exact h (by simp [hlist.2])
  | _ => cases hkind

theorem key_toList_expr (l : List (Atom ν)) : (expr l).key.toList =
    '(' :: (List.intercalate [' '] (l.map fun a => a.key.toList) ++ [')']) := by
  simp [key, keys_eq_map, Function.comp_def]

/-- The key of a plain atom does not begin with a closing bracket. -/
theorem Plain.key_append_ne {a : Atom ν} (ha : Plain a) (r t : List Char) :
    a.key.toList ++ r ≠ ')' :: t := by
  intro h
  cases ha with
  | @symbol name hname =>
    obtain ⟨c, cs, hc, -, hword⟩ := exists_cons_of_isName hname
    rw [show (.symbol name : Atom ν).key = name from rfl, hc] at h
    obtain rfl := (List.cons.inj h).1
    cases hword
  | var =>
    rw [key_toList_var] at h
    cases (List.cons.inj h).1
  | expr =>
    rw [key_toList_expr] at h
    cases (List.cons.inj h).1

/-- The keys of some atoms in a row, with the bracket that closes it and all that follows. -/
def keyRow (close : Char) (l : List (Atom ν)) (r : List Char) : List Char :=
  List.intercalate [' '] (l.map fun a => a.key.toList) ++ close :: r

theorem keyRow_cons (close : Char) (a : Atom ν) (l : List (Atom ν)) (r : List Char) : keyRow close (a :: l) r =
    a.key.toList ++ if l.isEmpty then close :: r else ' ' :: keyRow close l r := by
  cases l with
  | nil => simp [keyRow]
  | cons b l => simp [keyRow, List.intercalate_cons_cons]

theorem ends_rest (l : List (Atom ν)) (r : List Char) :
    Ends (if l.isEmpty then ')' :: r else ' ' :: keyRow ')' l r) := by
  intro c hc
  split at hc <;> cases hc <;> simp

theorem keyRow_ne {close : Char} {a : Atom ν} (ha : ∀ r t, a.key.toList ++ r ≠ close :: t) (l : List (Atom ν))
    (r t : List Char) : keyRow close (a :: l) r ≠ close :: t := by
  rw [keyRow_cons]
  exact ha _ t

/-- Keys in a row are told apart where single keys are. The keys are those of atoms of `P`, and what
follows each of them is of the form `E`. -/
theorem keyRow_inj {P : Atom ν → Prop} {E : List Char → Prop} {close : Char} (hclose : close ≠ ' ')
    (hopen : ∀ a, P a → ∀ r t, a.key.toList ++ r ≠ close :: t)
    (hrest : ∀ l r, (∀ a ∈ l, P a) → E r → E (if l.isEmpty then close :: r else ' ' :: keyRow close l r))
    {as bs : List (Atom ν)} {r t : List Char} (ha : ∀ a ∈ as, P a) (hb : ∀ b ∈ bs, P b) (hr : E r)
    (ht : E t) (hkey : ∀ a ∈ as, ∀ b r t, P b → E r → E t →
      a.key.toList ++ r = b.key.toList ++ t → a = b ∧ r = t)
    (h : keyRow close as r = keyRow close bs t) : as = bs ∧ r = t := by
  induction as generalizing bs with
  | nil =>
    cases bs with
    | nil => exact ⟨rfl, (List.cons.inj h).2⟩
    | cons b bs => exact absurd h.symm (keyRow_ne (hopen b (hb b (by simp))) bs t r)
  | cons a as ih =>
    cases bs with
    | nil => exact absurd h (keyRow_ne (hopen a (ha a (by simp))) as r t)
    | cons b bs =>
      rw [keyRow_cons, keyRow_cons] at h
      have has : ∀ x ∈ as, P x := fun x hx => ha x (by simp [hx])
      have hbs : ∀ x ∈ bs, P x := fun x hx => hb x (by simp [hx])
      -- behind equal keys, a blank shows that there are more and a bracket that there are none
      obtain ⟨rfl, hrest⟩ := hkey a (by simp) b _ _ (hb b (by simp)) (hrest as r has hr)
        (hrest bs t hbs ht) h
      cases as with
      | nil =>
        cases bs with
        | nil => exact ⟨rfl, (List.cons.inj hrest).2⟩
        | cons b' bs => exact absurd (List.cons.inj hrest).1 hclose
      | cons a' as =>
        cases bs with
        | nil => exact absurd (List.cons.inj hrest).1.symm hclose
        | cons b' bs =>
          obtain ⟨e, rfl⟩ := ih has hbs (fun x hx => hkey x (by simp [hx])) (List.cons.inj hrest).2
          exact ⟨by rw [e], rfl⟩

theorem word_key_inj {v w : String} {r t : List Char} (hv : isWord v = true) (hw : isWord w = true)
    (hr : Ends r) (ht : Ends t) (h : v.toList ++ r = w.toList ++ t) : v = w ∧ r = t := by
  obtain ⟨e, hrt⟩ := span_append_inj ((isWord_iff v).1 hv) ((isWord_iff w).1 hw) hr.not_wordChar
    ht.not_wordChar h
  exact ⟨String.toList_inj.1 e, hrt⟩

/-- No name begins like the key of a variable or an expression. -/
theorem name_key_ne {name : String} (h : isName name = true) {c : Char} (hc : c = '$' ∨ c = '(')
    (r t : List Char) : name.toList ++ r ≠ c :: t := by
  obtain ⟨d, cs, hd, hne, hword⟩ := exists_cons_of_isName h
  rw [hd, List.cons_append]
  intro e
  obtain rfl := (List.cons.inj e).1
  rcases hc with rfl | rfl
  · exact hne rfl
  · cases hword

/-- No key of a plain atom goes on where another one ends. -/
theorem Plain.key_append_inj {a : Atom ν} (ha : Plain a) : ∀ {b : Atom ν} {r t : List Char}, Plain b →
    Ends r → Ends t → a.key.toList ++ r = b.key.toList ++ t → a = b ∧ r = t := by
  -- where the kinds differ, so do the first characters
  induction ha with
  | symbol hname =>
    intro b r t hb hr ht h
    cases hb with
    | symbol hname' =>
      obtain ⟨rfl, rfl⟩ := word_key_inj (isWord_of_isName hname) (isWord_of_isName hname') hr ht h
      exact ⟨rfl, rfl⟩
    | var =>
      rw [key_toList_var] at h
      exact absurd h (name_key_ne hname (.inl rfl) _ _)
    | expr =>
      rw [key_toList_expr] at h
      exact absurd h (name_key_ne hname (.inr rfl) _ _)
  | var hword =>
    intro b r t hb hr ht h
    rw [key_toList_var] at h
    cases hb with
    | symbol hname => exact absurd h.symm (name_key_ne hname (.inl rfl) _ _)
    | var hword' =>
      rw [key_toList_var] at h
      obtain ⟨rfl, rfl⟩ := word_key_inj hword hword' hr ht (List.cons.inj h).2
      exact ⟨rfl, rfl⟩
    | expr =>
      rw [key_toList_expr] at h
      cases (List.cons.inj h).1
  | @expr l hl ih =>
    intro b r t hb hr ht h
    rw [key_toList_expr] at h
    cases hb with
    | symbol hname => exact absurd h.symm (name_key_ne hname (.inr rfl) _ _)
    | var =>
      rw [key_toList_var] at h
      cases (List.cons.inj h).1
    | @expr m hm =>
      rw [key_toList_expr] at h
      have hrow : keyRow ')' l r = keyRow ')' m t := by simpa [keyRow] using h
      obtain ⟨rfl, rfl⟩ := keyRow_inj (by decide) (fun _ => Plain.key_append_ne) (fun l r _ _ => ends_rest l r)
        hl hm hr ht (fun a ha b r t => ih a ha) hrow
      exact ⟨rfl, rfl⟩

theorem Plain.eq_of_beq {a b : Atom ν} (ha : Plain a) (hb : Plain b) (h : (a == b) = true) : a = b := by
  have hends : Ends [] := by simp [Ends]
  exact (ha.key_append_inj hb hends hends (by rw [((beq_iff a b).1 h).2])).1

omit [Scalar ν] in
theorem Plain.bind {a : Atom ν} (ha : Plain a) {f : String → Atom ν} (hf : ∀ x ∈ a.vars, Plain (f x)) :
    Plain (a.bind f) := by
  induction ha with
  | symbol h => exact .symbol h
  | @var name => exact hf name (by simp)
  | @expr l _ ih =>
    rw [bind_expr]
    apply Plain.expr
    intro b hb
    obtain ⟨a, ha, rfl⟩ := List.mem_map.1 hb
    exact ih a ha fun x hx => hf x (vars_expr l ▸ List.mem_flatMap.2 ⟨a, ha, hx⟩)

omit [Scalar ν] in
theorem Plain.var_numbered {x : String} (h : Plain (.var x : Atom ν)) (n : Nat) :
    Plain (.var (numbered x n) : Atom ν) := by
  apply Plain.var
  rw [isWord_iff]
  intro c hc
  rw [toList_numbered, List.mem_append, List.mem_cons] at hc
  rcases hc with hc | rfl | hc
  · cases h with
    | var hx => exact (isWord_iff x).1 hx c hc
  · rfl
  · have hdigit := Nat.isDigit_of_mem_toDigits (by decide) (by decide) hc
    simp only [wordChar, Bool.and_eq_true, decide_eq_true_eq]
    refine ⟨⟨?_, ?_⟩, ?_⟩ <;>
    · rintro rfl
      cases hdigit

theorem faithful_plain : Faithful {a : Atom ν | Plain a} where
  part h ha := by
    cases h with
    | expr h => exact h _ ha
  bind ha hf := Plain.bind ha hf
  eq_of_beq ha hb := Plain.eq_of_beq ha hb

end Atom

namespace Bindings

/-- All values are in the set. -/
def Within (b : Bindings ν) (D : Set (Atom ν)) : Prop := ∀ x a, b.find? x = some a → a ∈ D

theorem within_empty (D : Set (Atom ν)) : (∅ : Bindings ν).Within D := by
  intro x a h
  cases h

theorem Within.insert {b : Bindings ν} {D : Set (Atom ν)} (hb : b.Within D) (x : String) {v : Atom ν}
    (hv : v ∈ D) : (b.insert x v).Within D := by
  intro y a hy
  rw [find?_insert] at hy
  split at hy
  · cases hy; exact hv
  · exact hb y a hy

variable [Scalar ν]

theorem Within.expand_mem {D : Set (Atom ν)} (hD : Atom.Faithful D) (n : Nat) : ∀ {b : Bindings ν},
    b.Within D → ∀ x, .var x ∈ D → b.expand n x ∈ D := by
  induction n with
  | zero => intro _ _ x hx; exact hx
  | succ n ih =>
    intro b hb x hx
    cases h : b.find? x with
    | none => rwa [expand_of_free h]
    | some a =>
      rw [expand_succ h]
      exact hD.bind (hb x a h) fun y hy =>
        ih (fun z c hz => hb z c (find?_of_erase hz)) y (hD.var_mem (hb x a h) hy)

theorem Within.subst_mem {D : Set (Atom ν)} (hD : Atom.Faithful D) {b : Bindings ν} (hb : b.Within D)
    {a : Atom ν} (ha : a ∈ D) : b.subst a ∈ D :=
  hD.bind ha fun x hx => hb.expand_mem hD _ x (hD.var_mem ha hx)

end Bindings

end Atomspace
