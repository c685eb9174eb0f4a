import Mathlib.Data.List.Sort
import Atomspace.Proofs.RoundTrip
import Atomspace.Proofs.Writing
/-!
# States told apart by their percepts

The fingerprint of percepts lists their keys, each once and in order, one on a line. No key of an atom
that is read is empty or holds a line break (`Atom.Legible.line`), so the lines of a fingerprint are
its keys again, and it is the same for two lists just when they have the same keys
(`fingerprint_eq_iff`). The state of an agent depends on nothing else: neither on the order of its
percepts nor on what it has stored before (`perceive_eq_iff`).
-/

namespace Atomspace

namespace Text

/-! ## Lines -/

/-- Text that makes up one line: it is not empty and has no line break. -/
def Line (s : String) : Prop := s ≠ "" ∧ '\n' ∉ s.toList

/-- Lines that are joined can be taken apart again. -/
theorem intercalate_lines_inj {l m : List String} (hl : ∀ s ∈ l, Line s) (hm : ∀ s ∈ m, Line s)
    (h : "\n".intercalate l = "\n".intercalate m) : l = m := by
  have hsplit : ∀ l : List String, (∀ s ∈ l, Line s) → l ≠ [] →
      ("\n".intercalate l).toList.splitOn '\n' = l.map String.toList := by
    intro l hl hne
    rw [String.toList_intercalate]
    refine List.splitOn_intercalate _ ?_ (by simpa using hne)
    intro cs hcs
    obtain ⟨s, hs, rfl⟩ := List.mem_map.1 hcs
    exact (hl s hs).2
  -- no lines give the empty text, which is no line
  have hempty : ∀ l : List String, (∀ s ∈ l, Line s) → "\n".intercalate l = "" → l = [] := by
    intro l hl h
    by_contra hne
    have hlines := hsplit l hl hne
    rw [h] at hlines
    cases l with
    | nil => exact hne rfl
    | cons s l =>
      rw [List.map_cons, show "".toList.splitOn '\n' = [[]] from rfl] at hlines
      exact (hl s List.mem_cons_self).1 (String.toList_inj.1 (List.cons.inj hlines).1.symm)
  by_cases hnil : l = []
  · rw [hnil] at h ⊢
    exact (hempty m hm h.symm).symm
  · by_cases hnil' : m = []
    · rw [hnil'] at h
      exact absurd (hempty l hl h) hnil
    · have hlists := hsplit l hl hnil
      rw [h, hsplit m hm hnil'] at hlists
      exact (List.map_injective_iff.2 (fun _ _ => String.toList_inj.1) hlists).symm

end Text

/-! ## Each thing once and in order -/

section
variable {α : Type} [BEq α]

theorem eraseReps_cons_cons (a b : α) (l : List α) : (a :: b :: l).eraseReps =
    if a == b then (a :: l).eraseReps else a :: (b :: l).eraseReps := by
  have hloop : ∀ (l acc : List α) (a : α), List.eraseRepsBy.loop (· == ·) a l acc =
      acc.reverse ++ List.eraseRepsBy.loop (· == ·) a l [] := by
    intro l
    induction l with
    | nil => simp [List.eraseRepsBy.loop]
    | cons b l ih =>
      intro acc a
      unfold List.eraseRepsBy.loop
      split
      · exact ih acc a
      · rw [ih (a :: acc) b, ih [a] b]
        simp
  show List.eraseRepsBy.loop (· == ·) a (b :: l) [] = _
  rw [List.eraseRepsBy.loop]
  split
  · rename_i h
    rw [if_pos h]
    rfl
  · rename_i h
    rw [if_neg (by simp [h]), hloop l [a] b]
    rfl

theorem mem_eraseReps [LawfulBEq α] {x : α} {l : List α} : x ∈ l.eraseReps ↔ x ∈ l := by
  induction l with
  | nil => rfl
  | cons a l ih =>
    cases l with
    | nil => rfl
    | cons b l =>
      rw [eraseReps_cons_cons]
      split
      · rename_i h
        rw [beq_iff_eq.1 h, ih]
        simp
      · rw [List.mem_cons, ih, ← List.mem_cons]

end

/-- Without its repetitions, a list in order is in strict order. -/
theorem pairwise_lt_eraseReps {α : Type} [LinearOrder α] [BEq α] [LawfulBEq α] {l : List α}
    (h : l.Pairwise (· ≤ ·)) : l.eraseReps.Pairwise (· < ·) := by
  induction l with
  | nil => exact .nil
  | cons a l ih =>
    cases l with
    | nil => exact List.pairwise_singleton _ _
    | cons b l =>
      obtain ⟨ha, hl⟩ := List.pairwise_cons.1 h
      rw [eraseReps_cons_cons]
      split
      · rename_i heq
        rw [beq_iff_eq.1 heq]
        exact ih hl
      · rename_i hne
        have hlt : a < b := lt_of_le_of_ne (ha b List.mem_cons_self) fun h => hne (beq_iff_eq.2 h)
        refine List.pairwise_cons.2 ⟨fun x hx => ?_, ih hl⟩
        rcases List.mem_cons.1 (mem_eraseReps.1 hx) with rfl | hx
        · exact hlt
        · exact hlt.trans_le (List.rel_of_pairwise_cons hl hx)

/-- Sorting and leaving out repetitions gives the same list for the same members. -/
theorem eraseReps_mergeSort_inj {l m : List String} :
    (l.mergeSort fun a b => decide (a ≤ b)).eraseReps = (m.mergeSort fun a b => decide (a ≤ b)).eraseReps ↔
      ∀ x, x ∈ l ↔ x ∈ m := by
  have hmem (l : List String) (x : String) : x ∈ (l.mergeSort fun a b => decide (a ≤ b)).eraseReps ↔ x ∈ l := by
    rw [mem_eraseReps, List.mem_mergeSort]
  have hsorted (l : List String) : (l.mergeSort fun a b => decide (a ≤ b)).Pairwise (· ≤ ·) := by
    have h : (l.mergeSort fun a b => decide (a ≤ b)).Pairwise fun a b => decide (a ≤ b) = true :=
      List.pairwise_mergeSort (by simpa using fun _ _ _ => le_trans) (by simpa using le_total) l
    simpa using h
  constructor
  · intro h x
    rw [← hmem l, h, hmem]
  · intro h
    exact (pairwise_lt_eraseReps (hsorted l)).eq_of_mem_iff (pairwise_lt_eraseReps (hsorted m))
      fun x => by rw [hmem, hmem, h]

/-! ## Keys are lines -/

namespace Text

theorem newline_not_mem_of_bare {cs : List Char} (h : ∀ c ∈ cs, Reader.isDelimiter c = false) : '\n' ∉ cs := by
  intro hmem
  cases h _ hmem

theorem newline_not_mem_keyEscape (c : Char) : '\n' ∉ keyEscape c := by
  rcases keyEscape_cases c with ⟨d, hd, h⟩ | ⟨-, -, h⟩ | h <;> intro hmem <;> rw [h] at hmem
  · obtain rfl : '\n' = d := by simpa using hmem
    exact absurd hd (by simp [shortEscapes])
  · obtain rfl : '\n' = c := by simpa using hmem
    cases h
  · have hdigit : '\n' ∈ Nat.toDigits 16 c.toNat := by simpa using hmem
    obtain ⟨m, hm, e⟩ := exists_digitChar _ _ hdigit
    revert m
    decide

theorem newline_not_mem_keyQuote (s : String) : '\n' ∉ (keyQuote s).toList := by
  rw [toList_keyQuote]
  simpa using fun c _ => newline_not_mem_keyEscape c

end Text

namespace Atom

variable {ν : Type} [Scalar ν]

theorem Legible.key_ne_empty {N : Set ν} {a : Atom ν} (h : Legible N a) : a.key ≠ "" := by
  rcases h.symbol_or_head with ⟨name, rfl⟩ | ⟨c, cs, hkey, -⟩
  · cases h with
    | symbol hne => exact hne
  · rw [← String.toList_inj.ne, hkey]
    exact List.cons_ne_nil _ _

theorem newline_not_mem_row {l : List (Atom ν)} (h : ∀ a ∈ l, '\n' ∉ a.key.toList) :
    '\n' ∉ List.intercalate [' '] (l.map fun a => a.key.toList) := by
  induction l with
  | nil => exact List.not_mem_nil
  | cons a l ih =>
    obtain ⟨ha, hl⟩ := List.forall_mem_cons.1 h
    cases l with
    | nil => simpa using ha
    | cons b l =>
      rw [List.map_cons, List.map_cons, List.intercalate_cons_cons]
      simpa [ha] using ih hl

theorem Legible.newline_not_mem_key {N : Set ν} (hN : ∀ x ∈ N, '\n' ∉ (Scalar.key x).toList) {a : Atom ν}
    (h : Legible N a) : '\n' ∉ a.key.toList := by
  induction h with
  | symbol _ hbare => exact Text.newline_not_mem_of_bare hbare
  | var hbare =>
    rw [key_toList_var]
    simpa using Text.newline_not_mem_of_bare hbare
  | int n =>
    rw [key_toList_int]
    simpa using Text.newline_not_mem_of_bare fun c hc =>
      Reader.isDelimiter_of_numeralChar (Reader.numeralChar_of_mem_toString n c hc)
  | float hx =>
    rw [key_toList_float]
    simpa using hN _ hx
  | str s =>
    rw [key_toList_str]
    simpa using Text.newline_not_mem_keyQuote s
  | expr _ ih =>
    rw [key_toList_expr]
    simpa using newline_not_mem_row ih

end Atom

namespace Double

/-- No number that is read has a line break in its key. -/
theorem newline_not_mem_key {x : Double} (hx : x.value.isNaN = false) : '\n' ∉ (Scalar.key x).toList := by
  rcases key_cases hx with ⟨-, hkey⟩ | ⟨-, hkey⟩
  · rw [hkey]
    cases x.isNegative <;> decide
  · exact Text.newline_not_mem_of_bare fun c hc => Reader.isDelimiter_of_numeralChar (hkey c hc)

end Double

/-- The key of an atom that is read is a line, whatever texts are in it. -/
theorem line_of_readAtom {text : String} {a : Atom Double} (h : readAtom text = .ok a) : Text.Line a.key := by
  have hlegible := legible_of_readAtom h
  refine ⟨hlegible.key_ne_empty, hlegible.newline_not_mem_key ?_⟩
  rintro _ ⟨d, rfl⟩
  exact Double.newline_not_mem_key (Double.isNaN_ofDecimal d)

namespace Agent

variable {ρ σ ν : Type} [Scalar ν]

/-! ## What a fingerprint is taken of -/

/-- The stored atoms that percepts come to as an agent takes them in, one after another. -/
def taken (a : Agent ρ ν) : List (Atom ν) → List (Atom ν)
  | [] => []
  | percept :: percepts =>
    (a.space.assert percept (.ofEvidence 1.0 a.config.perceptionCount)).1 ::
      (a.notice percept).taken percepts

theorem filed_notice {a : Agent ρ ν} (ha : a.space.Filed) (percept : Atom ν) :
    (a.notice percept).space.Filed :=
  (ha.changes (Space.changes_assert ..)).changes (Space.revalued_touch ..).changes

/-- They have the keys of the percepts. -/
theorem keys_taken {a : Agent ρ ν} (ha : a.space.Filed) (percepts : List (Atom ν)) :
    (a.taken percepts).map Atom.key = percepts.map Atom.key := by
  induction percepts generalizing a with
  | nil => rfl
  | cons percept percepts ih =>
    rw [taken, List.map_cons, List.map_cons, ih (filed_notice ha percept)]
    exact congrArg (· :: _) (Space.key_add ha percept)

/-- The bytes that an agent takes the digest of, for percepts that it takes in. -/
def digested (a : Agent ρ ν) (percepts : List (Atom ν)) : ByteArray :=
  (fingerprint (a.taken percepts)).toUTF8

/-- The first sixteen hexadecimal digits of the digest of bytes. -/
def digits (bytes : ByteArray) : String :=
  ((String.ofList ((Digest.Blake3.hash bytes.toList).flatMap Digest.Blake3.hexByte)).take 16).toString

theorem digested_eq {a : Agent ρ ν} (ha : a.space.Filed) (percepts : List (Atom ν)) :
    a.digested percepts = (fingerprint percepts).toUTF8 := by
  unfold digested fingerprint
  rw [keys_taken ha]

theorem stateSymbol_eq {a : Agent ρ ν} (ha : a.space.Filed) (percepts : List (Atom ν)) :
    stateSymbol percepts = .symbol ("State-" ++ digits (a.digested percepts)) := by
  rw [digested_eq ha]
  rfl

/-- Nothing but a symbol has a key that begins like the name of a state. -/
theorem eq_symbol_of_key {c : Atom ν} {name : String} (h : c.key = "State-" ++ name) :
    c = .symbol ("State-" ++ name) := by
  have hlist := congrArg String.toList h
  cases c with
  | symbol => exact congrArg Atom.symbol h
  | var | expr | int | float | str | list | function => simp [Atom.key] at hlist

theorem perceive_eq {a : Agent ρ ν} (ha : a.space.Filed) (percepts : List (Atom ν)) :
    (a.perceive percepts).1 = .symbol ("State-" ++ digits (a.digested percepts)) := by
  have hfiled : (percepts.foldl notice { a with phase := .perceiving }).space.Filed := by
    have hfold : ∀ b : Agent ρ ν, b.space.Filed → (percepts.foldl notice b).space.Filed := by
      induction percepts with
      | nil => exact fun b hb => hb
      | cons percept percepts ih => exact fun b hb => ih _ (filed_notice hb percept)
    exact hfold _ ha
  have hkey : (a.perceive percepts).1.key = (stateSymbol percepts).key := by
    unfold perceive
    exact Space.key_add hfiled _
  rw [stateSymbol_eq ha percepts, Atom.key] at hkey
  exact eq_symbol_of_key hkey

/-! ## Percepts that are read -/

theorem digested_inj {a : Agent ρ Double} {b : Agent σ Double} (ha : a.space.Filed) (hb : b.space.Filed)
    {ps qs : List (Atom Double)} (hps : ∀ p ∈ ps, ∃ text, readAtom text = .ok p)
    (hqs : ∀ q ∈ qs, ∃ text, readAtom text = .ok q) :
    a.digested ps = b.digested qs ↔ ∀ key, key ∈ ps.map Atom.key ↔ key ∈ qs.map Atom.key := by
  have hlines {l : List (Atom Double)} (hl : ∀ x ∈ l, ∃ text, readAtom text = .ok x) :
      ∀ s ∈ ((l.map Atom.key).mergeSort fun a b => decide (a ≤ b)).eraseReps, Text.Line s := by
    intro s hs
    rw [mem_eraseReps, List.mem_mergeSort] at hs
    obtain ⟨x, hx, rfl⟩ := List.mem_map.1 hs
    obtain ⟨text, hread⟩ := hl x hx
    exact line_of_readAtom hread
  rw [digested_eq ha, digested_eq hb, ← eraseReps_mergeSort_inj]
  constructor
  · intro h
    exact Text.intercalate_lines_inj (hlines hps) (hlines hqs) (String.toByteArray_inj.1 h)
  · intro h
    unfold fingerprint
    simp only [h]

/-- The state that an agent perceives is a function of the set of keys of its percepts, whatever it
has stored, and tells different sets apart, as far as the sixteen digits do that are taken of a
digest. -/
theorem perceive_eq_iff {a : Agent ρ Double} {b : Agent σ Double} (ha : a.space.Reachable)
    (hb : b.space.Reachable) {ps qs : List (Atom Double)} (hps : ∀ p ∈ ps, ∃ text, readAtom text = .ok p)
    (hqs : ∀ q ∈ qs, ∃ text, readAtom text = .ok q) :
    let same := ∀ key, key ∈ ps.map Atom.key ↔ key ∈ qs.map Atom.key
    (a.perceive ps).1 = .symbol ("State-" ++ digits (a.digested ps)) ∧
      (a.digested ps = b.digested qs ↔ same) ∧
      (same → (a.perceive ps).1 = (b.perceive qs).1) ∧
      ∀ T : Set ByteArray, T.InjOn digits → a.digested ps ∈ T → b.digested qs ∈ T →
        ¬ same → (a.perceive ps).1 ≠ (b.perceive qs).1 := by
  intro same
  have hinj := digested_inj ha.filed hb.filed hps hqs
  refine ⟨perceive_eq ha.filed ps, hinj, fun h => ?_, fun T hT hps hqs hne h => hne (hinj.1 ?_)⟩
  · rw [perceive_eq ha.filed, perceive_eq hb.filed, hinj.2 h]
  · rw [perceive_eq ha.filed, perceive_eq hb.filed, Atom.symbol.injEq, String.append_right_inj] at h
    exact hT hps hqs h

/-- An agent that knows nothing yet. -/
def newborn : Agent SplitMix Double where
  config := default
  evaluator := { config := default, registry := .standard }
  space := .empty default
  random := {}

/-- It rains. -/
def rain : Atom Double := .symbol "rain"

/-- There is a note of two lines. -/
def note : Atom Double := .expr [.symbol "note", .str "a\nb"]

theorem fingerprint_note : fingerprint [rain, note] = "(note &str \"a\\nb\")\nrain" := by
  have hrain : rain.key = "rain" := rfl
  have hnote : note.key = "(note &str \"a\\nb\")" := by decide +kernel
  unfold fingerprint
  rw [List.map_cons, List.map_cons, hrain, hnote, List.map_nil]
  simp [List.mergeSort]
  decide +kernel

/-- To know of the note before, or to come upon it twice, makes no difference, but to miss it does. -/
theorem perceive_eq_iff_note :
    (newborn.perceive [rain, note]).1 = ((newborn.notice note).perceive [note, rain, note]).1 ∧
      (newborn.perceive [rain, note]).1 ≠ ((newborn.notice note).perceive [rain]).1 := by
  have hempty : newborn.space.Reachable := ⟨default, .refl⟩
  have hlearned := hempty.steps (follows_notice Space.conduct_step newborn note).steps
  have hrain : ∃ text, readAtom text = .ok rain := ⟨"rain", by rfl⟩
  have hnote : ∃ text, readAtom text = .ok note := ⟨"(note \"a\\nb\")", by rfl⟩
  have hboth : ∀ p ∈ [rain, note], ∃ text, readAtom text = .ok p := by simp [hrain, hnote]
  have htwice := perceive_eq_iff hempty hlearned hboth
    (by simp [hrain, hnote] : ∀ q ∈ [note, rain, note], ∃ text, readAtom text = .ok q)
  have hmissed := perceive_eq_iff hempty hlearned hboth
    (by simpa using hrain : ∀ q ∈ [rain], ∃ text, readAtom text = .ok q)
  refine ⟨htwice.2.2.1 fun key => ?_, hmissed.2.2.2 {newborn.digested [rain, note], _} ?_ (.inl rfl) (.inr rfl) ?_⟩
  · simp only [List.map_cons, List.map_nil, List.mem_cons, List.not_mem_nil, or_false]
    exact ⟨fun h => .inr h, fun h => h.elim .inr id⟩
  · rw [digested_eq hempty.filed, digested_eq hlearned.filed, fingerprint_note]
    refine Set.injOn_pair.2 fun h => absurd h ?_
    decide +kernel
  · intro h
    exact absurd ((h note.key).1 (by simp)) (by decide +kernel)

end Agent

end Atomspace
