import Atomspace.Proofs.Transitions
/-!
# Faults

An error of the reader points at the first thing that is wrong with a text (`readProgram_fault`). What
there is at the place of each kind of error is said about the text alone, by `Fault`.

The state of the reader keeps where the item that is being read starts and where the outermost open
group does. `Trace` says what these places have to do with the text so far. It holds at the start, every
step keeps it (`Trace.step`), and so it holds where the reader stops (`trace_of_run`): at a character
(`Trace.fault_of_consume`) or at the end of the text (`Trace.fault_of_finish`).
-/

namespace Atomspace

variable {ν : Type} [Scalar ν]

namespace Reader

/-! ## Places in a text -/

/-- The place behind some characters: behind so many newlines, and so many characters after the last. -/
def placeBehind (cs : List Char) : Position where
  line := 1 + cs.count '\n'
  column := 1 + (cs.reverse.takeWhile (· ≠ '\n')).length

theorem placeBehind_concat (cs : List Char) (c : Char) :
    placeBehind (cs ++ [c]) = (placeBehind cs).next c := by
  unfold placeBehind Position.next
  split
  · rename_i h
    simp [h, Nat.add_assoc]
  · rename_i h
    simp [h, Nat.add_comm]

/-- The text ends outside comments and quoted texts. -/
inductive Outside : List Char → Prop
  | nil : Outside []
  | char {cs : List Char} {c : Char} : Outside cs → c ≠ '"' → c ≠ ';' → Outside (cs ++ [c])
  | comment {cs line : List Char} : Outside cs → '\n' ∉ line → Outside (cs ++ ';' :: (line ++ ['\n']))
  | quoted {cs body text : List Char} : Outside cs → Quoted body text → Outside (cs ++ '"' :: (body ++ ['"']))

/-- No token goes on behind the text. -/
def Fresh (cs : List Char) : Prop :=
  ∀ c ∈ cs.getLast?, isDelimiter c = true

theorem fresh_concat {c : Char} (hc : isDelimiter c = true) (cs : List Char) : Fresh (cs ++ [c]) := by
  simpa [Fresh] using hc

theorem isDelimiter_of_isBlank {c : Char} (h : Text.isBlank c = true) : isDelimiter c = true := by
  simp [isDelimiter, h]

theorem Outside.blank {cs : List Char} (h : Outside cs) {c : Char} (hc : Text.isBlank c = true) :
    Outside (cs ++ [c]) := by
  refine .char h ?_ ?_ <;> rintro rfl <;> exact absurd hc (by decide)

theorem Outside.bare {cs ds : List Char} (h : Outside cs) (hds : ∀ d ∈ ds, isDelimiter d = false) :
    Outside (cs ++ ds) := by
  induction ds generalizing cs with
  | nil => rwa [List.append_nil]
  | cons d ds ih =>
    obtain ⟨hd, hds⟩ := List.forall_mem_cons.1 hds
    rw [← List.singleton_append, ← List.append_assoc]
    refine ih (.char h ?_ ?_) hds <;> rintro rfl <;> exact absurd hd (by decide)

theorem Quoted.append {cs ds text more : List Char} (h : Quoted cs text) (h' : Quoted ds more) :
    Quoted (cs ++ ds) (text ++ more) := by
  induction h with
  | nil => exact h'
  | plain hquote hslash _ ih => exact .plain hquote hslash ih
  | escape hescape _ ih => exact .escape hescape ih

/-- The last token of the text is a `!`, which makes a group behind it a directive. -/
def Marked (cs : List Char) : Prop :=
  ∃ before, cs = before ++ ['!'] ∧ Fresh before

/-- Only the token `!` is such a mark. -/
theorem eq_of_marked_append {before token : List Char} (hne : token ≠ [])
    (hbare : ∀ d ∈ token, isDelimiter d = false) (h : Marked (before ++ token)) : token = ['!'] := by
  obtain ⟨front, heq, hfresh⟩ := h
  obtain ⟨init, last, rfl⟩ := (List.eq_nil_or_concat token).resolve_left hne
  rw [List.concat_eq_append, ← List.append_assoc] at heq
  obtain ⟨rfl, hlast⟩ := List.append_inj' heq rfl
  rcases List.eq_nil_or_concat init with rfl | ⟨init, d, rfl⟩
  · simpa using hlast
  · have hd := hfresh d (by simp)
    rw [hbare d (by simp)] at hd
    cases hd

section
variable (ν)

/-- The text is a program. -/
def Reads (cs : List Char) : Prop :=
  ∃ l : List (Statement ν), readProgram (String.ofList cs) = .ok l

/-- The text is a program, or the beginning of one that ends within a group. -/
def Begins (cs : List Char) : Prop :=
  Reads ν cs ∨ ∃ p, readProgram (ν := ν) (String.ofList cs) = .error (.unclosed p)

/-- The group that was opened before the text is closed in it. -/
def Closes (rest : List Char) : Prop :=
  ∃ row more, ∃ l : List (Atom ν), rest = row ++ ')' :: more ∧ Row row l

/-- What is wrong with a text, and where. -/
inductive Fault : List Char → ReadError → Prop
  | close {before rest : List Char} : Outside before → Reads ν before →
      Fault (before ++ ')' :: rest) (.unexpectedClose (placeBehind before))
  | group {before rest : List Char} : Outside before → ¬ Marked before → Reads ν before → ¬ Closes ν rest →
      Fault (before ++ '(' :: rest) (.unclosed (placeBehind before))
  | directive {before rest : List Char} : Outside before → Fresh before → Reads ν before → ¬ Closes ν rest →
      Fault (before ++ '!' :: '(' :: rest) (.unclosed (placeBehind before))
  | text {before body text slash : List Char} : Outside before → Begins ν before → Quoted body text →
      slash = [] ∨ slash = ['\\'] →
      Fault (before ++ '"' :: (body ++ slash)) (.unterminatedText (placeBehind before))
  | escape {before body text rest : List Char} {c : Char} : Outside before → Begins ν before →
      Quoted body text → c ∉ ['"', '\\', 'n', 't'] →
      Fault (before ++ '"' :: (body ++ '\\' :: c :: rest))
        (.invalidEscape c (placeBehind (before ++ '"' :: (body ++ ['\\']))))
  | variable {before rest : List Char} : Outside before → Fresh before → Begins ν before →
      (∀ c ∈ rest.head?, isDelimiter c = true) →
      Fault (before ++ '$' :: rest) (.emptyVariable (placeBehind before))

end

namespace State

variable {s t u : State ν} {c : Char} {e : ReadError}

/-! ## Runs -/

/-- Behind the text the reader is in a state. -/
def Runs (cs : List Char) (s : State ν) : Prop :=
  cs.foldlM State.step {} = .ok s

theorem Runs.append {cs ds : List Char} (h : Runs cs s) (ht : ds.foldlM State.step s = .ok t) :
    Runs (cs ++ ds) t := by
  rw [Runs, List.foldlM_append, h]
  exact ht

theorem Runs.split {cs ds : List Char} (h : Runs (cs ++ ds) t) :
    ∃ s : State ν, Runs cs s ∧ ds.foldlM State.step s = .ok t := by
  rw [Runs, List.foldlM_append] at h
  exact ok_of_bind h

theorem Runs.unique {cs : List Char} (h : Runs cs s) (h' : Runs cs t) : s = t :=
  Except.ok.inj (h.symm.trans h')

theorem Runs.readProgram {cs : List Char} (h : Runs cs s) : readProgram (String.ofList cs) =
    s.finish.map fun t => t.statements.reverse.map Prod.fst := by
  rw [Atomspace.readProgram, readAll, String.toList_ofList, h]
  rfl

/-- Behind the text the reader is outside comments and quoted texts, and a character starts something
new there. -/
structure Comes (cs : List Char) (c : Char) (s u : State ν) : Prop where
  runs : Runs cs s
  ends : Ends s c u
  place : u.place = placeBehind cs
  outside : Outside cs
  fresh : isDelimiter c = false → Fresh cs
  unmarked : c = '(' → u.groups = [] → ¬ Marked cs

theorem Comes.reads {cs : List Char} (h : Comes cs c s u) (hgroups : u.groups = []) : Reads ν cs := by
  rw [Reads, h.runs.readProgram, h.ends.finish, finish_of_gap (.inl h.ends.mode),
    outermost_eq_none_iff.2 hgroups]
  exact ⟨_, rfl⟩

theorem Comes.begins {cs : List Char} (h : Comes cs c s u) : Begins ν cs := by
  cases hgroups : u.outermost with
  | none => exact .inl (h.reads (outermost_eq_none_iff.1 hgroups))
  | some p =>
    refine .inr ⟨p, ?_⟩
    rw [h.runs.readProgram, h.ends.finish, finish_of_gap (.inl h.ends.mode), hgroups]
    rfl

/-! ## Groups that stay open -/

/-- A group opens at a place outside all others, and is not closed in the text. -/
inductive Opens (ν : Type) [Scalar ν] : List Char → Position → Prop
  | group {before rest : List Char} {s u : State ν} : Comes before '(' s u → u.groups = [] →
      ¬ Closes ν rest → Opens ν (before ++ '(' :: rest) (placeBehind before)
  | directive {before rest : List Char} {s u : State ν} : Comes before '!' s u → u.groups = [] →
      ¬ Closes ν rest → Opens ν (before ++ '!' :: '(' :: rest) (placeBehind before)

theorem not_closes_nil : ¬ Closes ν [] := by
  rintro ⟨row, more, l, h, -⟩
  simp at h

theorem row_of_closes_concat {rest : List Char} (h : Closes ν (rest ++ [c])) (hrest : ¬ Closes ν rest) :
    c = ')' ∧ ∃ l : List (Atom ν), Row rest l := by
  obtain ⟨row, more, l, heq, hrow⟩ := h
  rcases List.eq_nil_or_concat more with rfl | ⟨more, d, rfl⟩
  · obtain ⟨rfl, hc⟩ := List.append_inj' heq rfl
    exact ⟨by simpa using hc, l, hrow⟩
  · rw [List.concat_eq_append, ← List.cons_append, ← List.append_assoc] at heq
    exact absurd ⟨row, more, l, (List.append_inj' heq rfl).1, hrow⟩ hrest

theorem read_of_run {cs : List Char} (h : cs.foldlM State.step s = .ok t) : s.read cs = t.finish := by
  rw [State.read, h]
  rfl

theorem Runs.groups_of_group {before row : List Char} {l : List (Atom ν)} (hcomes : Comes before '(' s u)
    (hgroups : u.groups = []) (hrow : Row row l) (h : Runs (before ++ '(' :: (row ++ [')'])) t) :
    t.groups = [] := by
  obtain ⟨s', hs', hrun⟩ := h.split
  cases hcomes.runs.unique hs'
  have hput := put_of_groups hgroups (.expr l) ('(' :: (row ++ [')']))
  have hapart : Apart ('(' :: (row ++ [')'])) [] := fun _ _ _ => nofun
  have hitem := (Item.group hrow).read hcomes.ends.mode hapart fun _ h => by cases h
  rw [List.append_nil, ← hcomes.ends.read, read_of_run hrun,
    read_nil (.inl ((mode_put ..).trans hcomes.ends.mode)) (by rw [hput]; exact hgroups)] at hitem
  exact groups_of_finish hitem

theorem Runs.groups_of_directive {before row : List Char} {l : List (Atom ν)} (hcomes : Comes before '!' s u)
    (hgroups : u.groups = []) (hrow : Row row l) (h : Runs (before ++ '!' :: '(' :: (row ++ [')'])) t) :
    t.groups = [] := by
  obtain ⟨s', hs', hrun⟩ := h.split
  cases hcomes.runs.unique hs'
  have hdirect := hrow.read_directive hcomes.ends.mode hgroups []
  have hend := read_nil (s := u.direct l ('!' :: '(' :: (row ++ [')']))) (.inl hcomes.ends.mode) hgroups
  rw [← hcomes.ends.read, read_of_run hrun, hend] at hdirect
  exact groups_of_finish hdirect

/-- One more character leaves the group open, if there is an open group behind it. -/
theorem Opens.concat {cs : List Char} {p : Position} (h : Opens ν cs p) (hrun : Runs (cs ++ [c]) t)
    (hgroups : t.groups ≠ []) : Opens ν (cs ++ [c]) p := by
  -- only a `)` could close the group, and would leave none open, as it was outside all others
  cases h with
  | @group before rest s u hcomes hu hrest =>
    rw [List.append_assoc, List.cons_append] at hrun ⊢
    refine .group hcomes hu fun hclosed => ?_
    obtain ⟨rfl, l, hrow⟩ := row_of_closes_concat hclosed hrest
    exact hgroups (hrun.groups_of_group hcomes hu hrow)
  | @directive before rest s u hcomes hu hrest =>
    rw [List.append_assoc, List.cons_append, List.cons_append] at hrun ⊢
    refine .directive hcomes hu fun hclosed => ?_
    obtain ⟨rfl, l, hrow⟩ := row_of_closes_concat hclosed hrest
    exact hgroups (hrun.groups_of_directive hcomes hu hrow)

/-! ## Where the reader is -/

/-- What the text has to do with what the next character belongs to, if the outermost open group starts
at a place. -/
inductive Stands (ν : Type) [Scalar ν] (outer : Option Position) : List Char → Mode → Prop
  | gap {cs : List Char} : Outside cs → Fresh cs → Stands ν outer cs .gap
  | comment {cs line : List Char} : Outside cs → '\n' ∉ line → Stands ν outer (cs ++ ';' :: line) .comment
  | token {cs more : List Char} {c : Char} {s u : State ν} : Comes cs c s u → u.outermost = outer →
      (∀ d ∈ c :: more, isDelimiter d = false) →
      Stands ν outer (cs ++ c :: more) (.token (placeBehind cs) (c :: more).reverse)
  | quoted {cs body text : List Char} {s u : State ν} : Comes cs '"' s u → u.outermost = outer →
      Quoted body text → Stands ν outer (cs ++ '"' :: body) (.quoted (placeBehind cs) text.reverse)
  | escape {cs body text : List Char} {s u : State ν} : Comes cs '"' s u → u.outermost = outer →
      Quoted body text →
      Stands ν outer (cs ++ '"' :: (body ++ ['\\'])) (.escape (placeBehind cs) text.reverse)

/-- What the state behind a text has to do with it. -/
structure Trace (cs : List Char) (s : State ν) : Prop where
  runs : Runs cs s
  place : s.place = placeBehind cs
  mode : Stands ν s.outermost cs s.mode
  groups : ∀ p, s.outermost = some p → Opens ν cs p

theorem trace_start : Trace [] ({} : State ν) where
  runs := rfl
  place := rfl
  mode := .gap .nil nofun
  groups := nofun

theorem Trace.comes {cs : List Char} (h : Trace cs s) (hends : Ends s c u) : Comes cs c s u := by
  have hmode := h.mode
  have hplace := hends.place.trans h.place
  have hopen := hends.groups_eq_nil_iff
  cases hends with
  | gap hgap =>
    rw [hgap] at hmode
    cases hmode with
    | gap houtside hfresh =>
      refine ⟨h.runs, .gap hgap, hplace, houtside, fun _ => hfresh, fun _ _ => ?_⟩
      rintro ⟨before, rfl, -⟩
      exact absurd (hfresh '!' (by simp)) (by decide)
  | @token start chars a htoken hdelimiter hmark hleaf =>
    rw [htoken] at hmode
    cases hmode with
    | @token before more d s' u' hcomes houter hbare =>
      refine ⟨h.runs, .token htoken hdelimiter hmark hleaf, hplace, hcomes.outside.bare hbare, fun hc => ?_,
        fun hc hgroups hmarked => ?_⟩
      · rw [hdelimiter] at hc
        cases hc
      · refine hmark (hopen.1 hgroups) ?_ hc
        rw [eq_of_marked_append (List.cons_ne_nil d more) hbare hmarked]
        rfl

theorem Comes.stands {cs : List Char} (h : Comes cs c s u) (hstarts : Starts u c (.ok t)) :
    Stands ν t.outermost (cs ++ [c]) t.mode := by
  cases hstarts with
  | blank hblank =>
    rw [h.ends.mode]
    exact .gap (h.outside.blank hblank) (fresh_concat (isDelimiter_of_isBlank hblank) cs)
  | comment hc =>
    subst hc
    exact .comment h.outside (List.not_mem_nil)
  | openGroup hc =>
    subst hc
    show Stands ν _ _ u.mode
    rw [h.ends.mode]
    exact .gap (.char h.outside (by decide) (by decide)) (fresh_concat rfl cs)
  | closeGroup hc hclose =>
    subst hc
    rw [mode_closeGroup hclose, h.ends.mode]
    exact .gap (.char h.outside (by decide) (by decide)) (fresh_concat rfl cs)
  | quoted hc =>
    subst hc
    rw [h.place]
    exact .quoted h rfl .nil
  | token hc =>
    rw [h.place]
    exact .token h rfl (List.forall_mem_singleton.2 hc)

theorem Comes.opens {cs : List Char} {p : Position} (h : Comes cs c s u) (hstarts : Starts u c (.ok t))
    (hp : t.outermost = some p) : u.outermost = some p ∨ Opens ν (cs ++ [c]) p := by
  cases hstarts with
  | openGroup hc =>
    subst hc
    rw [outermost_openGroup, Option.some.injEq] at hp
    cases houter : u.outermost with
    | none =>
      rw [houter, Option.getD_none, h.place] at hp
      exact .inr (hp ▸ .group h (outermost_eq_none_iff.1 houter) not_closes_nil)
    | some q =>
      rw [houter, Option.getD_some] at hp
      exact .inl (congrArg some hp)
  | closeGroup _ hclose => exact .inl (outermost_closeGroup hclose hp)
  | _ => exact .inl hp

theorem Trace.stands {cs : List Char} (h : Trace cs s) (ht : s.consume c = .ok t) :
    Stands ν t.outermost (cs ++ [c]) t.mode := by
  have hconsumes := consumes_consume s c
  have hmode := h.mode
  rw [ht] at hconsumes
  cases hconsumes with
  | starts hends hstarts => exact (h.comes hends).stands hstarts
  | comment hs hc =>
    rw [hs] at hmode ⊢
    cases hmode with
    | comment houtside hline =>
      rw [List.append_assoc]
      exact .comment houtside (by simp [hline, hc.symm])
  | newline hs hc =>
    subst hc
    rw [hs] at hmode
    cases hmode with
    | @comment before line houtside hline =>
      refine .gap ?_ (fresh_concat rfl _)
      rw [List.append_assoc]
      exact .comment houtside hline
  | token hs hc =>
    rw [hs] at hmode
    cases hmode with
    | @token before more d s' u' hcomes houter hbare =>
      have hchars : c :: (d :: more).reverse = (d :: (more ++ [c])).reverse := by simp
      have hmore : ∀ b ∈ (d :: more) ++ [c], isDelimiter b = false :=
        List.forall_mem_append.2 ⟨hbare, List.forall_mem_singleton.2 hc⟩
      rw [List.append_assoc, hchars]
      exact .token hcomes houter hmore
  | directive hs hc hgroups =>
    subst hc
    rw [hs] at hmode
    generalize hchars : ['!'] = chars at hmode
    cases hmode with
    | token hcomes houter hbare =>
      exact .gap (.char (hcomes.outside.bare hbare) (by decide) (by decide)) (fresh_concat rfl _)
  | endQuote hs hc =>
    subst hc
    rw [hs] at hmode
    cases hmode with
    | @quoted before body text s' u' hcomes houter hbody =>
      rw [mode_emit]
      refine .gap ?_ (fresh_concat rfl _)
      rw [List.append_assoc]
      exact .quoted hcomes.outside hbody
  | slash hs hc =>
    subst hc
    rw [hs] at hmode
    cases hmode with
    | quoted hcomes houter hbody =>
      rw [List.append_assoc]
      exact .escape hcomes houter hbody
  | quoted hs hquote hslash =>
    rw [hs] at hmode
    cases hmode with
    | @quoted before body text s' u' hcomes houter hbody =>
      have hchars : c :: text.reverse = (text ++ [c]).reverse := by simp
      rw [List.append_assoc, hchars]
      exact .quoted hcomes houter (hbody.append (.plain hquote hslash .nil))
  | @escape start chars d hs hc =>
    rw [hs] at hmode
    cases hmode with
    | @escape before body text s' u' hcomes houter hbody =>
      have hchars : d :: text.reverse = (text ++ [d]).reverse := by simp
      rw [List.append_assoc, List.cons_append, List.append_assoc, hchars]
      exact .quoted hcomes houter (hbody.append (.escape ((mem_escapes_iff ..).2 hc) .nil))

theorem Trace.opens {cs : List Char} {p : Position} (h : Trace cs s) (ht : s.consume c = .ok t)
    (hp : t.outermost = some p) : s.outermost = some p ∨ Opens ν (cs ++ [c]) p := by
  have hconsumes := consumes_consume s c
  rw [ht] at hconsumes
  cases hconsumes with
  | starts hends hstarts =>
    rw [← hends.outermost]
    exact (h.comes hends).opens hstarts hp
  | directive hs hc hgroups =>
    -- the group counts from its `!`, which has been read as a token so far
    subst hc
    have hnone : (s.into .gap).outermost = none := outermost_eq_none_iff.2 hgroups
    rw [outermost_openGroup, hnone, Option.getD_none, Option.some.injEq] at hp
    have hmode := h.mode
    rw [hs] at hmode
    generalize hchars : ['!'] = chars at hmode
    cases hmode with
    | token hcomes houter hbare =>
      rw [eq_comm, List.reverse_eq_iff, List.reverse_singleton, List.cons.injEq] at hchars
      obtain ⟨rfl, rfl⟩ := hchars
      have hgroups := outermost_eq_none_iff.1 (houter.trans hnone)
      rw [List.append_assoc, ← hp]
      exact .inr (.directive hcomes hgroups not_closes_nil)
  | endQuote =>
    rw [outermost_emit] at hp
    exact .inl hp
  | _ => exact .inl hp

/-- A character that is no fault keeps the trace. -/
theorem Trace.step {cs : List Char} (h : Trace cs s) (ht : s.step c = .ok t) : Trace (cs ++ [c]) t := by
  have hruns : Runs (cs ++ [c]) t := h.runs.append (by rw [List.foldlM_cons, ht]; rfl)
  obtain ⟨u, hconsume, rfl⟩ := ok_of_map ht
  have hmode := h.stands hconsume
  refine ⟨hruns, ?_, hmode, fun p hp => ?_⟩
  · rw [placeBehind_concat, ← h.place]
  · rcases h.opens hconsume hp with hs | hopens
    · refine (h.groups p hs).concat hruns fun hgroups => ?_
      rw [outermost_eq_none_iff.2 hgroups] at hp
      cases hp
    · exact hopens

/-- So does a text without a fault. -/
theorem trace_of_run {cs : List Char} (h : Runs cs s) : Trace cs s := by
  induction cs using List.reverseRecOn generalizing s with
  | nil =>
    cases h
    exact trace_start
  | append_singleton cs c ih =>
    obtain ⟨t, ht, hstep⟩ := h.split
    rw [List.foldlM_cons] at hstep
    obtain ⟨u, hu, hrest⟩ := ok_of_bind hstep
    cases hrest
    exact (ih ht).step hu

/-! ## Where the reader stops -/

theorem leaf?_eq_none {cs : List Char} (h : (leaf? cs : Option (Atom ν)) = none) : cs = ['$'] := by
  unfold leaf? at h
  split at h
  · rfl
  · cases h
  · split at h <;> cases h

theorem Comes.fault_variable {before rest : List Char} (h : Comes before '$' s u)
    (hrest : ∀ c ∈ rest.head?, isDelimiter c = true) :
    Fault ν (before ++ '$' :: rest) (.emptyVariable (placeBehind before)) :=
  .variable h.outside (h.fresh rfl) h.begins hrest

/-- The reader stops at a character that is a fault. -/
theorem Trace.fault_of_consume {cs : List Char} (h : Trace cs s) (he : s.consume c = .error e)
    (rest : List Char) : Fault ν (cs ++ c :: rest) e := by
  have hconsumes := consumes_consume s c
  have hmode := h.mode
  rw [he] at hconsumes
  cases hconsumes with
  | starts hends hstarts =>
    have hcomes := h.comes hends
    cases hstarts with
    | closeGroup hc hclose =>
      obtain ⟨hgroups, rfl⟩ := closeGroup_error hclose
      rw [hc, hcomes.place]
      exact .close hcomes.outside (hcomes.reads hgroups)
  | nameless hs hdelimiter hleaf =>
    rw [hs] at hmode
    cases hmode with
    | token hcomes houter hbare =>
      rw [List.reverse_reverse] at hleaf
      obtain ⟨rfl, rfl⟩ := List.cons.inj (leaf?_eq_none hleaf)
      rw [List.append_assoc]
      exact hcomes.fault_variable fun d hd => by cases hd; exact hdelimiter
  | badEscape hs hc =>
    have hplace := h.place
    rw [hs] at hmode
    cases hmode with
    | @escape before body text s' u' hcomes houter hbody =>
      have hbad : c ∉ ['"', '\\', 'n', 't'] := by
        intro hmem
        simp only [List.mem_cons, List.not_mem_nil, or_false] at hmem
        rcases hmem with rfl | rfl | rfl | rfl <;> cases hc
      rw [hplace, List.append_assoc, List.cons_append, List.append_assoc]
      exact .escape hcomes.outside hcomes.begins hbody hbad

/-- At the end of a text the reader stops because of a fault before. -/
theorem Trace.fault_of_finish {cs : List Char} (h : Trace cs s) (he : s.finish = .error e) :
    Fault ν cs e := by
  have hfinishes := finishes_finish s
  have hmode := h.mode
  rw [he] at hfinishes
  cases hfinishes with
  | unclosed houter =>
    cases h.groups _ houter with
    | group hcomes hgroups hrest =>
      exact .group hcomes.outside (hcomes.unmarked rfl hgroups) (hcomes.reads hgroups) hrest
    | directive hcomes hgroups hrest =>
      exact .directive hcomes.outside (hcomes.fresh rfl) (hcomes.reads hgroups) hrest
  | nameless hs hleaf =>
    rw [hs] at hmode
    cases hmode with
    | token hcomes houter hbare =>
      rw [List.reverse_reverse] at hleaf
      obtain ⟨rfl, rfl⟩ := List.cons.inj (leaf?_eq_none hleaf)
      exact hcomes.fault_variable nofun
  | unterminated hs =>
    rcases hs with hs | hs <;> rw [hs] at hmode
    · cases hmode with
      | @quoted before body text s' u' hcomes houter hbody =>
        have hfault := Fault.text hcomes.outside hcomes.begins hbody (.inl rfl)
        rwa [List.append_nil] at hfault
    · cases hmode with
      | escape hcomes houter hbody => exact .text hcomes.outside hcomes.begins hbody (.inr rfl)

/-- A fold that fails does so at some character. -/
theorem exists_consume_error {cs : List Char} (h : cs.foldlM State.step s = .error e) :
    ∃ before c rest u, cs = before ++ c :: rest ∧ before.foldlM State.step s = .ok u ∧
      u.consume c = .error e := by
  induction cs generalizing s with
  | nil => cases h
  | cons c cs ih =>
    rw [List.foldlM_cons] at h
    cases hstep : s.step c with
    | error e' =>
      rw [hstep] at h
      cases h
      exact ⟨[], c, cs, s, rfl, rfl, error_of_map hstep⟩
    | ok t =>
      rw [hstep] at h
      obtain ⟨before, d, rest, u, rfl, hbefore, hd⟩ := ih h
      refine ⟨c :: before, d, rest, u, rfl, ?_, hd⟩
      rw [List.foldlM_cons, hstep]
      exact hbefore

end State

end Reader

open Reader

/-- An error of the reader says what is wrong with the text, and where. A group that is closed without
being open and an escape that there is not remain wrong whatever follows. -/
theorem readProgram_fault {text : String} {e : ReadError}
    (h : readProgram (ν := ν) text = .error e) :
    Fault ν text.toList e ∧
      ((∃ p, e = .unexpectedClose p) ∨ (∃ c p, e = .invalidEscape c p) →
        ∀ more, readProgram (ν := ν) (text ++ more) = .error e) := by
  cases hrun : text.toList.foldlM State.step ({} : State ν) with
  | error e' =>
    have hprogram (more : String) : readProgram (ν := ν) (text ++ more) = .error e' := by
      rw [readProgram, readAll, String.toList_append, List.foldlM_append, hrun]
      rfl
    have heq := hprogram ""
    rw [String.append_empty, h] at heq
    cases heq
    obtain ⟨before, c, rest, s, htext, hbefore, hstop⟩ := State.exists_consume_error hrun
    rw [htext]
    exact ⟨(State.trace_of_run hbefore).fault_of_consume hstop rest, fun _ => hprogram⟩
  | ok s =>
    have hread := State.Runs.readProgram hrun
    rw [String.ofList_toList, h] at hread
    have hfinish : s.finish = .error e := error_of_map hread.symm
    refine ⟨(State.trace_of_run hrun).fault_of_finish hfinish, ?_⟩
    -- an error at the end of the text is of another kind
    have hfinishes := State.finishes_finish s
    rw [hfinish] at hfinishes
    rintro (⟨p, rfl⟩ | ⟨c, p, rfl⟩) <;> cases hfinishes

/-- In the second line, behind a comment, an escape in a group is wrong. -/
theorem readProgram_fault_escape :
    Fault Double "; say\n(say \"no\\way\")".toList (.invalidEscape 'w' ⟨2, 10⟩) ∧
      ∀ more, readProgram (ν := Double) ("; say\n(say \"no\\way\")" ++ more) =
        .error (.invalidEscape 'w' ⟨2, 10⟩) := by
  have hread : readProgram (ν := Double) "; say\n(say \"no\\way\")" =
      .error (.invalidEscape 'w' ⟨2, 10⟩) := by rfl
  have h := readProgram_fault hread
  exact ⟨h.1, h.2 (.inr ⟨_, _, rfl⟩)⟩

end Atomspace
