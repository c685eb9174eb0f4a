import Atomspace.Proofs.Doubles
import Atomspace.Proofs.Legible
/-!
# What the reader builds

Every atom that the reader builds is legible (`legible_of_readAtom`): each step of the fold over the
characters keeps all atoms of the state legible (`State.Written`). So two atoms that are read and
count as equal are the same tree (`readAtom_eq_of_beq`).
-/

namespace Atomspace

variable {ν : Type} [Scalar ν]

namespace Reader

theorem ok_of_bind {ε α β : Type} {x : Except ε α} {f : α → Except ε β} {b : β}
    (h : x.bind f = .ok b) : ∃ a, x = .ok a ∧ f a = .ok b := by
  cases x with
  | error e => cases h
  | ok a => exact ⟨a, rfl, h⟩

theorem ok_of_map {ε α β : Type} {x : Except ε α} {f : α → β} {b : β} (h : x.map f = .ok b) :
    ∃ a, x = .ok a ∧ f a = b := by
  cases x with
  | error e => cases h
  | ok a => exact ⟨a, rfl, Except.ok.inj h⟩

theorem error_of_map {ε α β : Type} {x : Except ε α} {f : α → β} {e : ε} (h : x.map f = .error e) :
    x = .error e := by
  cases x with
  | error e' => exact congrArg Except.error (Except.error.inj h)
  | ok a => cases h

/-- A bare token stands for a legible atom. -/
theorem legible_of_leaf? {cs : List Char} {a : Atom ν} (hne : cs ≠ [])
    (hbare : ∀ c ∈ cs, isDelimiter c = false) (h : leaf? cs = some a) :
    a.Legible (Set.range Scalar.ofDecimal) := by
  rcases leaf?_cases h with ⟨name, -, rfl, rfl⟩ | ⟨n, -, rfl⟩ | ⟨d, -, -, rfl⟩ | ⟨-, -, -, rfl⟩
  · apply Atom.Legible.var
    intro c hc
    rw [String.toList_ofList] at hc
    exact hbare c (List.mem_cons_of_mem _ hc)
  · exact .int n
  · exact .float ⟨d, rfl⟩
  · refine .symbol ?_ ?_ (by rwa [String.toList_ofList])
    · intro e
      exact hne (by rw [← String.toList_ofList (l := cs), e]; rfl)
    · rwa [Atom.Bare, String.toList_ofList]

namespace State

/-- All atoms of the state are legible, and the characters of a token can stand in one. -/
structure Written (s : State ν) : Prop where
  token : ∀ start chars, s.mode = .token start chars →
    chars ≠ [] ∧ ∀ c ∈ chars, isDelimiter c = false
  child : ∀ g ∈ s.groups, ∀ a ∈ g.children, a.Legible (Set.range Scalar.ofDecimal)
  statement : ∀ p ∈ s.statements, p.1.atom.Legible (Set.range Scalar.ofDecimal)

variable {s t : State ν}

theorem written_start : ({} : State ν).Written where
  token := nofun
  child := nofun
  statement := nofun

theorem Written.outside (h : s.Written) {mode : Mode} (hmode : ∀ start chars, mode ≠ .token start chars) :
    ({ s with mode } : State ν).Written :=
  ⟨fun _ _ e => absurd e (hmode _ _), h.child, h.statement⟩

theorem Written.inside (h : s.Written) (start : Position) {chars : List Char} (hne : chars ≠ [])
    (hbare : ∀ c ∈ chars, isDelimiter c = false) :
    ({ s with mode := .token start chars } : State ν).Written := by
  refine ⟨fun _ _ e => ?_, h.child, h.statement⟩
  cases e
  exact ⟨hne, hbare⟩

theorem Written.emit (h : s.Written) {a : Atom ν} (ha : a.Legible (Set.range Scalar.ofDecimal))
    (start : Position) : (s.emit a start).Written := by
  unfold State.emit
  split
  · exact ⟨h.token, h.child, List.forall_mem_cons.2 ⟨ha, h.statement⟩⟩
  · rename_i g rest hgroups
    obtain ⟨hg, hrest⟩ := List.forall_mem_cons.1 (hgroups ▸ h.child)
    exact ⟨h.token, List.forall_mem_cons.2 ⟨List.forall_mem_cons.2 ⟨ha, hg⟩, hrest⟩, h.statement⟩

theorem Written.openGroup (h : s.Written) (directive : Bool) (start : Position) :
    (s.openGroup directive start).Written :=
  ⟨h.token, List.forall_mem_cons.2 ⟨List.forall_mem_nil _, h.child⟩, h.statement⟩

theorem Written.closeGroup (h : s.Written) (ht : s.closeGroup = .ok t) : t.Written := by
  unfold State.closeGroup at ht
  split at ht
  · cases ht
  · rename_i g rest hgroups
    obtain ⟨hg, hrest⟩ := List.forall_mem_cons.1 (hgroups ▸ h.child)
    have hexpr : (Atom.expr g.children.reverse).Legible (Set.range (Scalar.ofDecimal (ν := ν))) :=
      .expr fun a ha => hg a (List.mem_reverse.1 ha)
    have hrest : ({ s with groups := rest } : State ν).Written := ⟨h.token, hrest, h.statement⟩
    simp only at ht
    split at ht <;> cases ht
    · exact ⟨hrest.token, hrest.child, List.forall_mem_cons.2 ⟨hexpr, hrest.statement⟩⟩
    · exact hrest.emit hexpr g.place

theorem Written.endToken (h : s.Written) {start : Position} {chars : List Char} (hne : chars ≠ [])
    (hbare : ∀ c ∈ chars, isDelimiter c = false) (ht : s.endToken start chars = .ok t) : t.Written := by
  unfold State.endToken at ht
  split at ht
  · rename_i a ha
    cases ht
    refine (h.outside (by simp)).emit (legible_of_leaf? (by simpa using hne) ?_ ha) start
    intro c hc
    exact hbare c (List.mem_reverse.1 hc)
  · cases ht

theorem Written.startItem (h : s.Written) {c : Char} (ht : s.startItem c = .ok t) : t.Written := by
  unfold State.startItem at ht
  split at ht
  · cases ht
    exact h.outside (by simp)
  · rename_i hblank
    split at ht
    · cases ht
      exact h.outside (by simp)
    · cases ht
      exact (h.outside (by simp)).openGroup false s.place
    · exact (h.outside (by simp)).closeGroup ht
    · cases ht
      exact h.outside (by simp)
    · rename_i hcomment hopen hclose hquote
      cases ht
      refine h.inside s.place (by simp) (List.forall_mem_singleton.2 ?_)
      simp only [isDelimiter, Bool.or_eq_false_iff, beq_eq_false_iff_ne]
      exact ⟨⟨⟨⟨Bool.not_eq_true _ ▸ hblank, hopen⟩, hclose⟩, hquote⟩, hcomment⟩

theorem Written.consume (h : s.Written) {c : Char} (ht : s.consume c = .ok t) : t.Written := by
  unfold State.consume at ht
  split at ht
  · exact h.startItem ht
  · cases ht
    split
    · exact h.outside (by simp)
    · exact h
  · rename_i start chars hmode
    obtain ⟨hne, hbare⟩ := h.token start chars hmode
    split at ht
    · rename_i hc
      cases ht
      refine h.inside start (by simp) (List.forall_mem_cons.2 ⟨by simpa using hc, hbare⟩)
    · split at ht
      · cases ht
        exact (h.outside (by simp)).openGroup true start
      · obtain ⟨u, hu, ht⟩ := ok_of_bind ht
        exact (h.endToken hne hbare hu).startItem ht
  · split at ht <;> cases ht
    · exact (h.outside (by simp)).emit (.str _) _
    · exact h.outside (by simp)
    · exact h.outside (by simp)
  · split at ht <;> cases ht
    exact h.outside (by simp)

theorem Written.step (h : s.Written) {c : Char} (ht : s.step c = .ok t) : t.Written := by
  obtain ⟨u, hu, rfl⟩ := ok_of_map ht
  have hu := h.consume hu
  exact ⟨hu.token, hu.child, hu.statement⟩

theorem Written.run (h : s.Written) {cs : List Char} (ht : cs.foldlM State.step s = .ok t) :
    t.Written := by
  induction cs generalizing s with
  | nil =>
    cases ht
    exact h
  | cons c cs ih =>
    rw [List.foldlM_cons] at ht
    obtain ⟨u, hu, ht⟩ := ok_of_bind ht
    exact ih (h.step hu) ht

theorem Written.finish (h : s.Written) (ht : s.finish = .ok t) : t.Written := by
  unfold State.finish at ht
  split at ht
  case h_4 | h_5 => cases ht
  all_goals
    obtain ⟨u, hu, ht⟩ := ok_of_bind ht
    simp only at ht
    split at ht <;> cases ht
  · cases hu
    exact h
  · cases hu
    exact h
  · rename_i start chars hmode _ _
    obtain ⟨hne, hbare⟩ := h.token start chars hmode
    exact h.endToken hne hbare hu

end State

theorem written_readAll {text : String} {s : State ν} (h : readAll text = .ok s) : s.Written := by
  obtain ⟨u, hu, h⟩ := ok_of_bind h
  exact (State.written_start.run hu).finish h

end Reader

/-- What is read is legible. -/
theorem legible_of_readAtom {text : String} {a : Atom ν} (h : readAtom text = .ok a) :
    a.Legible (Set.range Scalar.ofDecimal) := by
  obtain ⟨s, hs, h⟩ := Reader.ok_of_bind h
  split at h <;> cases h
  rename_i statement place hstatements
  refine (Reader.written_readAll hs).statement (statement, place) (List.mem_reverse.1 ?_)
  rw [hstatements]
  exact List.mem_singleton_self _

namespace Atom

mutual

/-- The numbers of an atom that are no whole numbers. -/
def floats : Atom ν → List ν
  | expr children => floatsAll children
  | float value => [value]
  | list items => floatsAll items
  | _ => []

/-- The numbers of a list of atoms. -/
def floatsAll : List (Atom ν) → List ν
  | [] => []
  | a :: l => floats a ++ floatsAll l

end

omit [Scalar ν] in
theorem floatsAll_eq_flatMap (l : List (Atom ν)) : floatsAll l = l.flatMap floats := by
  induction l with
  | nil => rfl
  | cons a l ih => rw [floatsAll, ih, List.flatMap_cons]

theorem Legible.mono {N M : Set ν} {a : Atom ν} (h : Legible N a) (hM : ∀ x ∈ a.floats, x ∈ N → x ∈ M) :
    Legible M a := by
  induction h with
  | symbol hne hbare hleaf => exact .symbol hne hbare hleaf
  | var hbare => exact .var hbare
  | int n => exact .int n
  | float hx => exact .float (hM _ (by simp [floats]) hx)
  | str s => exact .str s
  | @expr l _ ih =>
    apply Legible.expr
    intro a ha
    refine ih a ha fun x hx => hM x ?_
    rw [floats, floatsAll_eq_flatMap]
    exact List.mem_flatMap.2 ⟨a, ha, hx⟩

end Atom

namespace Double

/-- The numbers that are read, but for infinity. -/
def written : Set Double := {x | x.value.isInf = false ∧ x ∈ Set.range Scalar.ofDecimal}

theorem isFinite_of_mem_written {x : Double} (h : x ∈ written) : x.value.isFinite = true := by
  obtain ⟨hinf, d, rfl⟩ := h
  exact isFinite_of_not_isNaN (isNaN_ofDecimal d) hinf

theorem numerals_written : Atom.Numerals written where
  reads h := by
    obtain ⟨d, hd, -⟩ := exists_decimal_key (isFinite_of_mem_written h)
    exact ⟨d, hd⟩
  inj {x y} hx hy h := by
    have hvalue := value_eq_of_key (isFinite_of_mem_written hx) (isFinite_of_mem_written hy) h
    obtain ⟨-, d, rfl⟩ := hx
    obtain ⟨-, d', rfl⟩ := hy
    exact congrArg (Double.mk · false) hvalue

end Double

/-- Two atoms that are read, without infinite numbers, count as equal only if they are the same
tree. -/
theorem readAtom_eq_of_beq {v w : String} {a b : Atom Double} (hv : readAtom v = .ok a)
    (hw : readAtom w = .ok b) (ha : ∀ x ∈ a.floats, x.value.isInf = false)
    (hb : ∀ x ∈ b.floats, x.value.isInf = false) (h : (a == b) = true) : a = b :=
  Atom.Legible.eq_of_beq Double.numerals_written
    ((legible_of_readAtom hv).mono fun x hx hread => ⟨ha x hx, hread⟩)
    ((legible_of_readAtom hw).mono fun x hx hread => ⟨hb x hx, hread⟩) h

/-- A symbol spelled like the tag of a number before a number, and one like that of a text. -/
def tagged (d : Decimal) : Atom Double :=
  .expr [.symbol "&int", .int 5, .expr [.symbol "&str", .str "a b"], .float (Scalar.ofDecimal d)]

/-- Two spellings of one number, amid symbols that are spelled like tags. -/
theorem readAtom_eq_of_beq_tagged :
    tagged { digits := 150, exponent := -2 } = tagged { digits := 15, exponent := -1 } :=
  readAtom_eq_of_beq (v := "(&int 5 (&str \"a b\") 1.50)") (w := "( &int 5(&str\"a b\") 15e-1)")
    (by rfl) (by rfl) (by decide +kernel) (by decide +kernel) (by decide +kernel)

end Atomspace
