import Atomspace.Proofs.Learning
import Atomspace.Proofs.Reader
/-!
# Keys side by side

With exact numbers, whose keys are fractions, some trees share a key: `(x 0.5)` has that of
`(x &float 1/2)`. All the same a key that is read tells the kind of its atom
(`Legible.beq_iff_key`), and in a row of two it is certain where the first one ends, since parentheses
in keys are balanced (`Legible.beq_of_sides`). So two transitions count as equal just when their states
and actions do (`Agent.transition_beq_iff`).
-/

namespace Atomspace

/-! ## Balanced texts -/

namespace Text

/-- Text in which each parenthesis that opens is closed, and none other. Quoted parentheses do not
count. -/
inductive Balanced : List Char → Prop
  | nil : Balanced []
  | char {c : Char} {cs : List Char} : c ≠ '(' → c ≠ ')' → c ≠ '"' → Balanced cs → Balanced (c :: cs)
  | quoted {v cs : List Char} : Balanced cs → Balanced ('"' :: (v.flatMap keyEscape ++ '"' :: cs))
  | group {cs ds : List Char} : Balanced cs → Balanced ds → Balanced ('(' :: (cs ++ ')' :: ds))

theorem Balanced.append {cs ds : List Char} (h : Balanced cs) (h' : Balanced ds) : Balanced (cs ++ ds) := by
  induction h with
  | nil => exact h'
  | char hopen hclose hquote _ ih => exact .char hopen hclose hquote ih
  | quoted _ ih =>
    rw [List.cons_append, List.append_assoc, List.cons_append]
    exact .quoted ih
  | group hcs _ _ ih =>
    rw [List.cons_append, List.append_assoc, List.cons_append]
    exact .group hcs ih

/-- Balanced text ends at the first parenthesis that closes nothing in it. -/
theorem Balanced.close_inj {cs : List Char} (h : Balanced cs) : ∀ {ds r t : List Char}, Balanced ds →
    cs ++ ')' :: r = ds ++ ')' :: t → cs = ds ∧ r = t := by
  induction h with
  | nil =>
    intro ds r t hd e
    cases hd with
    | nil => exact ⟨rfl, (List.cons.inj e).2⟩
    | char _ hclose => exact absurd (List.cons.inj e).1.symm hclose
    | quoted => cases (List.cons.inj e).1
    | group => cases (List.cons.inj e).1
  | char hopen hclose hquote _ ih =>
    intro ds r t hd e
    cases hd with
    | nil => exact absurd (List.cons.inj e).1 hclose
    | char _ _ _ hd =>
      obtain ⟨rfl, htail⟩ := List.cons.inj e
      obtain ⟨rfl, rfl⟩ := ih hd htail
      exact ⟨rfl, rfl⟩
    | quoted => exact absurd (List.cons.inj e).1 hquote
    | group => exact absurd (List.cons.inj e).1 hopen
  | quoted _ ih =>
    intro ds r t hd e
    cases hd with
    | nil => cases (List.cons.inj e).1
    | char _ _ hquote => exact absurd (List.cons.inj e).1.symm hquote
    | quoted hd =>
      obtain ⟨rfl, htail⟩ := flatMap_keyEscape_inj (by simpa using e)
      obtain ⟨rfl, rfl⟩ := ih hd htail
      exact ⟨rfl, rfl⟩
    | group => cases (List.cons.inj e).1
  | group _ _ ih ih' =>
    intro ds r t hd e
    cases hd with
    | nil => cases (List.cons.inj e).1
    | char hopen => exact absurd (List.cons.inj e).1.symm hopen
    | quoted => cases (List.cons.inj e).1
    | group hd hd' =>
      obtain ⟨rfl, htail⟩ := ih hd (by simpa using e)
      obtain ⟨rfl, rfl⟩ := ih' hd' htail
      exact ⟨rfl, rfl⟩

theorem balanced_of_bare {cs : List Char} (h : ∀ c ∈ cs, Reader.isDelimiter c = false) : Balanced cs := by
  induction cs with
  | nil => exact .nil
  | cons c cs ih =>
    obtain ⟨hc, hcs⟩ := List.forall_mem_cons.1 h
    refine .char ?_ ?_ ?_ (ih hcs) <;>
    · rintro rfl
      cases hc

end Text

namespace Atom

variable {exp : Rat → Rat} {N : Set (Exact exp)} {a b : Atom (Exact exp)}

open Text (Balanced)

/-! ## Keys that are read -/

theorem isDelimiter_of_mem_key {x : Exact exp} :
    ∀ c ∈ (Scalar.key x).toList, Reader.isDelimiter c = false := by
  intro c hc
  rcases Exact.numeralChar_or_slash hc with h | rfl
  · exact Reader.isDelimiter_of_numeralChar h
  · rfl

theorem isDelimiter_of_mem_toString (n : Int64) : ∀ c ∈ (toString n).toList, Reader.isDelimiter c = false :=
  fun c hc => Reader.isDelimiter_of_numeralChar (Reader.numeralChar_of_mem_toString n c hc)

theorem balanced_row {l : List (Atom (Exact exp))} (h : ∀ a ∈ l, Balanced a.key.toList) :
    Balanced (List.intercalate [' '] (l.map fun a => a.key.toList)) := by
  induction l with
  | nil => exact .nil
  | cons a l ih =>
    obtain ⟨ha, hl⟩ := List.forall_mem_cons.1 h
    cases l with
    | nil => simpa [List.intercalate] using ha
    | cons c l =>
      rw [List.map_cons, List.map_cons, List.intercalate_cons_cons]
      simpa using ha.append (.char (by decide) (by decide) (by decide) (ih hl))

theorem Legible.balanced (ha : Legible N a) : Balanced a.key.toList := by
  induction ha with
  | symbol _ hbare => exact Text.balanced_of_bare hbare
  | var hbare =>
    rw [key_toList_var]
    exact .char (by decide) (by decide) (by decide) (Text.balanced_of_bare hbare)
  | int n =>
    rw [key_toList_int]
    have hnumeral := Text.balanced_of_bare (isDelimiter_of_mem_toString n)
    iterate 5 refine .char (by decide) (by decide) (by decide) ?_
    exact hnumeral
  | @float x _ =>
    rw [key_toList_float]
    have hnumeral := Text.balanced_of_bare (isDelimiter_of_mem_key (x := x))
    iterate 7 refine .char (by decide) (by decide) (by decide) ?_
    exact hnumeral
  | str s =>
    rw [key_toList_str, Text.toList_keyQuote]
    iterate 5 refine .char (by decide) (by decide) (by decide) ?_
    exact .quoted .nil
  | expr _ ih =>
    rw [key_toList_expr]
    exact .group (balanced_row ih) .nil

/-- What stands behind the keys of two atoms in one place of a group: the end of the group, or one
last atom. -/
inductive Sides (N : Set (Exact exp)) : List Char → List Char → Prop
  | close (r t : List Char) : Sides N (')' :: r) (')' :: t)
  | next {c d : Atom (Exact exp)} (r t : List Char) : Legible N c → Legible N d →
      Sides N (' ' :: (c.key.toList ++ ')' :: r)) (' ' :: (d.key.toList ++ ')' :: t))

theorem Sides.symm {r t : List Char} (h : Sides N r t) : Sides N t r := by
  cases h with
  | close => exact .close _ _
  | next _ _ hc hd => exact .next _ _ hd hc

theorem Sides.ends {r t : List Char} (h : Sides N r t) : ∀ c ∈ r.head?, wordChar c = false := by
  rintro c hc
  cases h <;> cases hc <;> rfl

/-- A key before the end of a group is no numeral with something behind it. -/
theorem Legible.close_ne_numeral (ha : Legible N a) {w : List Char}
    (hw : ∀ c ∈ w, Decimal.numeralChar c = true ∨ c = '/') (r t : List Char) :
    a.key.toList ++ ')' :: r ≠ w ++ ' ' :: t := by
  intro e
  rcases ha.symbol_or_head with ⟨name, rfl⟩ | ⟨c, cs, hkey, hc⟩
  · cases ha with
    | symbol _ hbare _ =>
      have hword : ∀ c ∈ w, wordChar c = true := by
        intro c hc
        rcases hw c hc with hc | rfl
        · exact Reader.wordChar_of_not_isDelimiter (Reader.isDelimiter_of_numeralChar hc)
        · rfl
      obtain ⟨-, hrest⟩ := span_append_inj ((isWord_iff name).1 (isWord_of_bare hbare)) hword
        (by simp [wordChar]) (by simp [wordChar]) e
      cases (List.cons.inj hrest).1
  · rw [hkey] at e
    cases w with
    | nil =>
      obtain rfl := (List.cons.inj e).1
      revert hc
      decide
    | cons d w =>
      obtain rfl := (List.cons.inj e).1
      rcases hw c (by simp) with h | rfl
      · rcases hc with rfl | rfl | rfl <;> cases h
      · revert hc
        decide

/-- A symbol spelled like the tag of a number or a text is told apart from it by what stands behind. -/
theorem Legible.tag_ne_of_sides {name : String} (h : Legible N (.symbol name)) {r t p : List Char}
    (hsides : Sides N r t) (tag : List Char) (htag : ∀ c ∈ tag, wordChar c = true)
    (hp : ∀ {c : Atom (Exact exp)} {r t : List Char}, Legible N c → c.key.toList ++ ')' :: r ≠ p ++ ' ' :: t) :
    name.toList ++ r ≠ tag ++ ' ' :: (p ++ t) := by
  intro e
  cases h with
  | symbol _ hbare _ =>
    obtain ⟨-, hrest⟩ := span_append_inj ((isWord_iff name).1 (isWord_of_bare hbare)) htag
      hsides.ends (by simp [wordChar]) e
    cases hsides with
    | close => cases (List.cons.inj hrest).1
    | next _ _ hc => exact hp hc (List.cons.inj hrest).2

theorem Legible.symbol_beq_of_sides {name : String} (h : Legible N (.symbol name)) (hb : Legible N b)
    {r t : List Char} (hsides : Sides N r t) (e : name.toList ++ r = b.key.toList ++ t) :
    (.symbol name == b) = true ∧ r = t := by
  cases hb with
  | symbol _ hbare' _ =>
    cases h with
    | symbol _ hbare _ =>
      obtain ⟨hname, rfl⟩ := span_append_inj ((isWord_iff name).1 (isWord_of_bare hbare))
        ((isWord_iff _).1 (isWord_of_bare hbare')) hsides.ends hsides.symm.ends e
      exact ⟨(beq_iff _ _).2 ⟨rfl, String.toList_inj.1 hname⟩, rfl⟩
  | var =>
    rw [key_toList_var] at e
    exact absurd e (h.symbol_append_ne (.inl rfl) _ _)
  | int n =>
    rw [key_toList_int] at e
    exact absurd e (h.tag_ne_of_sides hsides ['&', 'i', 'n', 't'] (by simp [wordChar])
      fun hc => hc.close_ne_numeral (fun c h => .inl (Reader.numeralChar_of_mem_toString n c h)) _ _)
  | float =>
    rw [key_toList_float] at e
    exact absurd e (h.tag_ne_of_sides hsides ['&', 'f', 'l', 'o', 'a', 't'] (by simp [wordChar])
      fun hc => hc.close_ne_numeral (fun _ => Exact.numeralChar_or_slash) _ _)
  | str s =>
    rw [key_toList_str] at e
    refine absurd e (h.tag_ne_of_sides hsides ['&', 's', 't', 'r'] (by simp [wordChar]) ?_)
    intro c r t hc
    rw [Text.toList_keyQuote]
    exact (hc.quote_append_ne _ _).symm
  | expr =>
    rw [key_toList_expr] at e
    exact absurd e (h.symbol_append_ne (.inr rfl) _ _)

/-- In a row of at most two atoms, the place where the key of the first one ends is certain. -/
theorem Legible.beq_of_sides (ha : Legible N a) (hb : Legible N b) {r t : List Char} (hsides : Sides N r t)
    (e : a.key.toList ++ r = b.key.toList ++ t) : (a == b) = true ∧ r = t := by
  -- but for symbols, atoms of different kinds have keys that differ in the first two characters
  have hbare {v w : List Char} (hv : ∀ c ∈ v, Reader.isDelimiter c = false)
      (hw : ∀ c ∈ w, Reader.isDelimiter c = false) (e : v ++ r = w ++ t) : v = w ∧ r = t :=
    span_append_inj (fun c hc => Reader.wordChar_of_not_isDelimiter (hv c hc))
      (fun c hc => Reader.wordChar_of_not_isDelimiter (hw c hc)) hsides.ends hsides.symm.ends e
  have hsymbol {name : String} {a : Atom (Exact exp)} (hb : Legible N (.symbol name)) (ha : Legible N a)
      (e : a.key.toList ++ r = name.toList ++ t) : (a == .symbol name) = true ∧ r = t := by
    obtain ⟨hbeq, hrest⟩ := hb.symbol_beq_of_sides ha hsides.symm e.symm
    rw [beq_iff] at hbeq ⊢
    exact ⟨⟨hbeq.1.symm, hbeq.2.symm⟩, hrest.symm⟩
  cases ha with
  | symbol hne hname hleaf => exact Legible.symbol_beq_of_sides (.symbol hne hname hleaf) hb hsides e
  | var hname =>
    cases hb with
    | symbol hne hname' hleaf => exact hsymbol (.symbol hne hname' hleaf) (.var hname) e
    | var hname' =>
      rw [key_toList_var, key_toList_var] at e
      obtain ⟨hsame, hrest⟩ := hbare hname hname' (List.cons.inj e).2
      exact ⟨by rw [String.toList_inj.1 hsame]; exact beq_self _, hrest⟩
    | int | float | str | expr =>
      simp [key_toList_var, key_toList_int, key_toList_float, key_toList_str, key_toList_expr] at e
  | int n =>
    cases hb with
    | symbol hne hname' hleaf => exact hsymbol (.symbol hne hname' hleaf) (.int n) e
    | int m =>
      rw [key_toList_int, key_toList_int] at e
      obtain ⟨hsame, hrest⟩ := hbare (isDelimiter_of_mem_toString n) (isDelimiter_of_mem_toString m)
        (by simpa using e)
      refine ⟨(beq_iff _ _).2 ⟨rfl, ?_⟩, hrest⟩
      rw [key, key, String.toList_inj.1 hsame]
    | var | float | str | expr =>
      simp [key_toList_int, key_toList_var, key_toList_float, key_toList_str, key_toList_expr] at e
  | @float x hx =>
    cases hb with
    | symbol hne hname' hleaf => exact hsymbol (.symbol hne hname' hleaf) (.float hx) e
    | float =>
      rw [key_toList_float, key_toList_float] at e
      obtain ⟨hsame, hrest⟩ := hbare isDelimiter_of_mem_key isDelimiter_of_mem_key (by simpa using e)
      refine ⟨(beq_iff _ _).2 ⟨rfl, ?_⟩, hrest⟩
      rw [key, key, String.toList_inj.1 hsame]
    | var | int | str | expr =>
      simp [key_toList_float, key_toList_var, key_toList_int, key_toList_str, key_toList_expr] at e
  | str s =>
    cases hb with
    | symbol hne hname' hleaf => exact hsymbol (.symbol hne hname' hleaf) (.str s) e
    | str s' =>
      rw [key_toList_str, key_toList_str] at e
      obtain ⟨rfl, hrest⟩ := Text.keyQuote_append_inj (by simpa using e)
      exact ⟨beq_self _, hrest⟩
    | var | int | float | expr =>
      simp [key_toList_str, key_toList_var, key_toList_int, key_toList_float, key_toList_expr] at e
  | @expr l hl =>
    cases hb with
    | symbol hne hname' hleaf => exact hsymbol (.symbol hne hname' hleaf) (.expr hl) e
    | @expr m hm =>
      have hgroup {l : List (Atom (Exact exp))} (hl : ∀ a ∈ l, Legible N a) :
          ∃ cs, Balanced cs ∧ (Atom.expr l).key.toList = '(' :: (cs ++ [')']) :=
        ⟨_, balanced_row fun a ha => (hl a ha).balanced, key_toList_expr l⟩
      obtain ⟨cs, hcs, hkey⟩ := hgroup hl
      obtain ⟨ds, hds, hkey'⟩ := hgroup hm
      rw [hkey, hkey'] at e
      obtain ⟨rfl, hrest⟩ := hcs.close_inj hds (by simpa using e)
      exact ⟨(beq_iff _ _).2 ⟨rfl, String.toList_inj.1 (hkey.trans hkey'.symm)⟩, hrest⟩
    | var | int | float | str =>
      simp [key_toList_expr, key_toList_var, key_toList_int, key_toList_float, key_toList_str] at e

theorem Legible.beq_iff_key (ha : Legible N a) (hb : Legible N b) : (a == b) = true ↔ a.key = b.key := by
  constructor
  · exact fun h => ((beq_iff a b).1 h).2
  · exact fun h => (ha.beq_of_sides hb (.close [] []) (by rw [h])).1

end Atom

namespace Agent

variable {exp : Rat → Rat} {N : Set (Exact exp)} {p a n p' a' n' : Atom (Exact exp)}

theorem key_toList_transition (p a n : Atom (Exact exp)) : (transition p a n).key.toList =
    "(Implies (Seq ".toList ++
      (p.key.toList ++ ' ' :: (a.key.toList ++ ')' :: ' ' :: (n.key.toList ++ [')']))) := by
  simp [transition, Atom.key, Atom.keys]

/-- Transitions of atoms that are read count as equal just when their parts do. -/
theorem transition_beq_iff (hp : p.Legible N) (ha : a.Legible N) (hn : n.Legible N) (hp' : p'.Legible N)
    (ha' : a'.Legible N) (hn' : n'.Legible N) : (transition p a n == transition p' a' n') = true ↔
      (p == p') = true ∧ (a == a') = true ∧ (n == n') = true := by
  rw [Atom.beq_iff]
  constructor
  · rintro ⟨-, h⟩
    have hlist := congrArg String.toList h
    rw [key_toList_transition, key_toList_transition] at hlist
    obtain ⟨hstate, hlist⟩ := hp.beq_of_sides hp' (.next _ _ ha ha') (List.append_cancel_left hlist)
    obtain ⟨haction, hlist⟩ := ha.beq_of_sides ha' (.close _ _) (List.cons.inj hlist).2
    obtain ⟨hnext, -⟩ := hn.beq_of_sides hn' (.close _ _) (List.cons.inj (List.cons.inj hlist).2).2
    exact ⟨hstate, haction, hnext⟩
  · rintro ⟨hstate, haction, hnext⟩
    refine ⟨rfl, String.toList_inj.1 ?_⟩
    rw [key_toList_transition, key_toList_transition, ((Atom.beq_iff _ _).1 hstate).2,
      ((Atom.beq_iff _ _).1 haction).2, ((Atom.beq_iff _ _).1 hnext).2]

end Agent

end Atomspace
