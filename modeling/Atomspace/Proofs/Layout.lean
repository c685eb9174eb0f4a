import Atomspace.Proofs.Grammar
/-!
# Reading a layout

The reader accepts exactly the texts that the grammar describes, with the statements that they stand
for (`readProgram_eq_ok_iff`).

For each part of the grammar one equation says that reading the part and then the rest of the text is
reading the rest in a later state (`read_gap`, `Item.read`, `Row.read`, `Layout.read`). What is read
has these parts, by induction on the length of the text (`parts_of_read`).
-/

namespace Atomspace

variable {ν : Type} [Scalar ν]

namespace Reader

namespace State

variable {s t : State ν}

/-! ## States -/

/-- The state with the place moved behind some characters. -/
def after (s : State ν) (cs : List Char) : State ν :=
  { s with place := cs.foldl Position.next s.place }

/-- The state with another mode. -/
def into (s : State ν) (mode : Mode) : State ν :=
  { s with mode }

/-- The state behind an item that starts here and has some characters. -/
def put (s : State ν) (a : Atom ν) (cs : List Char) : State ν :=
  (s.emit a s.place).after cs

/-- The state behind a directive that starts here and has some characters. -/
def direct (s : State ν) (children : List (Atom ν)) (cs : List Char) : State ν :=
  { s.after cs with statements := (.evaluate (.expr children), s.place) :: s.statements }

/-- The state with atoms behind the children of the innermost group. -/
def gather (s : State ν) (l : List (Atom ν)) : State ν :=
  match s.groups with
  | [] => s
  | g :: rest => { s with groups := { g with children := l.reverse ++ g.children } :: rest }

section
omit [Scalar ν]

@[simp] theorem after_after (s : State ν) (cs ds : List Char) : (s.after cs).after ds = s.after (cs ++ ds) := by
  simp [after]

@[simp] theorem after_into (s : State ν) (mode : Mode) (cs : List Char) :
    (s.into mode).after cs = (s.after cs).into mode := rfl

@[simp] theorem into_into (s : State ν) (mode mode' : Mode) : (s.into mode).into mode' = s.into mode' := rfl

@[simp] theorem mode_into (s : State ν) (mode : Mode) : (s.into mode).mode = mode := rfl

@[simp] theorem groups_after (s : State ν) (cs : List Char) : (s.after cs).groups = s.groups := rfl

theorem into_of_mode {mode : Mode} (h : s.mode = mode) : s.into mode = s := by
  rw [into, ← h]

@[simp] theorem place_emit (s : State ν) (a : Atom ν) (start : Position) : (s.emit a start).place = s.place := by
  unfold emit
  split <;> rfl

@[simp] theorem mode_emit (s : State ν) (a : Atom ν) (start : Position) : (s.emit a start).mode = s.mode := by
  unfold emit
  split <;> rfl

theorem emit_after (s : State ν) (cs : List Char) (a : Atom ν) (start : Position) :
    (s.after cs).emit a start = (s.emit a start).after cs := by
  obtain ⟨place, mode, groups, statements⟩ := s
  cases groups <;> rfl

@[simp] theorem mode_put (s : State ν) (a : Atom ν) (cs : List Char) : (s.put a cs).mode = s.mode :=
  mode_emit s a s.place

@[simp] theorem mode_gather (s : State ν) (l : List (Atom ν)) : (s.gather l).mode = s.mode := by
  unfold gather
  split <;> rfl

theorem gather_nil (s : State ν) : s.gather [] = s := by
  unfold gather
  split
  · rfl
  · rename_i hgroups
    rw [List.reverse_nil, List.nil_append, ← hgroups]

/-- In a group an item is one more child. -/
theorem put_gather (hgroups : s.groups ≠ []) (a : Atom ν) (l : List (Atom ν)) (gap cs : List Char) :
    ((s.after gap).put a cs).gather l = (s.gather (a :: l)).after (gap ++ cs) := by
  obtain ⟨g, rest, hg⟩ := List.exists_cons_of_ne_nil hgroups
  simp [put, emit, gather, after, hg]

theorem groups_put_ne_nil (hgroups : s.groups ≠ []) (a : Atom ν) (cs : List Char) :
    (s.put a cs).groups ≠ [] := by
  obtain ⟨g, rest, hg⟩ := List.exists_cons_of_ne_nil hgroups
  simp [put, emit, after, hg]

/-- Outside all groups an item is a statement. -/
theorem put_of_groups (hgroups : s.groups = []) (a : Atom ν) (cs : List Char) : s.put a cs =
    { s.after cs with statements := (.assert a, s.place) :: s.statements } := by
  simp [put, emit, after, hgroups]

end

omit [Scalar ν] in
theorem closeGroup_gather (s : State ν) (l : List (Atom ν)) (start : Position) (cs ds : List Char) :
    ((((s.openGroup false start).after cs).gather l).after ds).closeGroup =
      .ok ((s.after (cs ++ ds)).emit (.expr l) start) := by
  simp [openGroup, gather, after, closeGroup]

omit [Scalar ν] in
theorem closeGroup_directive (s : State ν) (l : List (Atom ν)) (bs cs ds : List Char) :
    (((((s.after bs).openGroup true s.place).after cs).gather l).after ds).closeGroup =
      .ok (s.direct l (bs ++ (cs ++ ds))) := by
  simp [openGroup, gather, after, closeGroup, direct]

/-- Reads the rest of a text. -/
def read (s : State ν) (cs : List Char) : Except ReadError (State ν) :=
  (cs.foldlM State.step s).bind State.finish

theorem read_cons (s : State ν) (c : Char) (cs : List Char) :
    s.read (c :: cs) = (s.consume c).bind fun t => ({ t with place := s.place.next c } : State ν).read cs := by
  unfold read
  rw [List.foldlM_cons]
  unfold step
  cases s.consume c <;> rfl

/-- Reading on behind a character that is no fault. -/
theorem read_of_consume {u : State ν} {c : Char} (h : s.consume c = .ok u) (hplace : u.place = s.place)
    (cs : List Char) : s.read (c :: cs) = (u.after [c]).read cs := by
  rw [read_cons, h, after, hplace]
  rfl

theorem read_nil (hmode : s.mode = .gap ∨ s.mode = .comment) (hgroups : s.groups = []) :
    s.read [] = .ok s := by
  show s.finish = .ok s
  unfold finish
  rcases hmode with hmode | hmode <;> simp [hmode, bind, Except.bind, hgroups]

/-! ## Single characters -/

theorem consume_blank (hmode : s.mode = .gap) {c : Char} (hc : Text.isBlank c = true) :
    s.consume c = .ok s := by
  unfold consume startItem
  rw [hmode]
  simp only [hc, if_true]
  rw [← hmode]

theorem consume_semicolon (hmode : s.mode = .gap) : s.consume ';' = .ok (s.into .comment) := by
  unfold consume
  rw [hmode]
  rfl

theorem consume_quote (hmode : s.mode = .gap) : s.consume '"' = .ok (s.into (.quoted s.place [])) := by
  unfold consume
  rw [hmode]
  rfl

theorem consume_open (hmode : s.mode = .gap) : s.consume '(' = .ok (s.openGroup false s.place) := by
  cases s
  cases hmode
  rfl

theorem consume_close (hmode : s.mode = .gap) : s.consume ')' = s.closeGroup := by
  cases s
  cases hmode
  rfl

theorem consume_token (hmode : s.mode = .gap) {c : Char} (hc : isDelimiter c = false) :
    s.consume c = .ok (s.into (.token s.place [c])) := by
  simp only [isDelimiter, Bool.or_eq_false_iff, beq_eq_false_iff_ne] at hc
  obtain ⟨⟨⟨⟨hblank, hopen⟩, hclose⟩, hquote⟩, hcomment⟩ := hc
  unfold consume startItem
  rw [hmode]
  simp only [hblank, Bool.false_eq_true, if_false]
  rfl

/-! ## Gaps -/

theorem read_comment (hmode : s.mode = .comment) {line : List Char} (hline : '\n' ∉ line)
    (rest : List Char) : s.read (line ++ rest) = (s.after line).read rest := by
  induction line generalizing s with
  | nil => rfl
  | cons c line ih =>
    rw [List.mem_cons, not_or] at hline
    have hconsume : s.consume c = .ok s := by
      unfold consume
      rw [hmode]
      exact congrArg _ (if_neg (Ne.symm hline.1))
    rw [List.cons_append, read_of_consume hconsume rfl, ih (s := s.after [c]) hmode hline.2, after_after]
    rfl

theorem consume_newline (hmode : s.mode = .gap) : (s.into .comment).consume '\n' = .ok s := by
  cases s
  cases hmode
  rfl

theorem read_gap (hmode : s.mode = .gap) {gap : List Char} (hgap : Gap gap) (rest : List Char) :
    s.read (gap ++ rest) = (s.after gap).read rest := by
  induction hgap generalizing s with
  | nil => rfl
  | @blank c cs hc _ ih =>
    rw [List.cons_append, read_of_consume (consume_blank hmode hc) rfl, ih (s := s.after [c]) hmode,
      after_after]
    rfl
  | @comment line cs hline _ ih =>
    have hend := consume_newline (s := s.after (';' :: line)) hmode
    rw [List.cons_append, read_of_consume (consume_semicolon hmode) rfl, List.append_assoc, after_into,
      read_comment (mode_into _ _) hline, after_into, after_after, List.cons_append]
    rw [List.cons_append, List.nil_append, read_of_consume hend rfl,
      ih (s := (s.after (';' :: line)).after ['\n']) hmode, after_after, after_after]
    simp

/-! ## Tokens and quoted texts -/

theorem read_token {start : Position} {chars : List Char} (hmode : s.mode = .token start chars)
    {cs : List Char} (hcs : ∀ c ∈ cs, isDelimiter c = false) (rest : List Char) :
    s.read (cs ++ rest) = ((s.after cs).into (.token start (cs.reverse ++ chars))).read rest := by
  induction cs generalizing s chars with
  | nil =>
    rw [List.reverse_nil, List.nil_append, List.nil_append, ← hmode]
    rfl
  | cons c cs ih =>
    obtain ⟨hc, hcs⟩ := List.forall_mem_cons.1 hcs
    have hconsume : s.consume c = .ok (s.into (.token start (c :: chars))) := by
      unfold consume
      rw [hmode]
      simp only [hc, Bool.not_false, if_true]
      rfl
    rw [List.cons_append, read_of_consume hconsume rfl, after_into, ih (mode_into _ _) hcs]
    simp

theorem consume_delimiter (start : Position) {chars : List Char} {c : Char}
    (hc : isDelimiter c = true) (hmark : s.groups = [] → chars = ['!'] → c ≠ '(') :
    (s.into (.token start chars)).consume c =
      ((s.into (.token start chars)).endToken start chars).bind fun s => s.startItem c := by
  have hmark : ¬ (c = '(' ∧ chars = ['!'] ∧ (s.into (.token start chars)).groups.isEmpty = true) := by
    rintro ⟨rfl, hchars, hgroups⟩
    exact hmark (List.isEmpty_iff.1 hgroups) hchars rfl
  unfold consume
  rw [mode_into]
  simp only [hc, Bool.not_true, Bool.false_eq_true, if_false]
  rw [if_neg hmark]

/-- A token ends where a delimiter or the end of the text comes, unless it is the mark of a directive. -/
theorem read_endToken {start : Position} {chars : List Char} {a : Atom ν} (hmode : s.mode = .gap)
    (hleaf : leaf? chars.reverse = some a) {rest : List Char}
    (hrest : ∀ c ∈ rest.head?, isDelimiter c = true)
    (hmark : s.groups = [] → chars = ['!'] → rest.head? ≠ some '(') :
    (s.into (.token start chars)).read rest = (s.emit a start).read rest := by
  have hend : (s.into (.token start chars)).endToken start chars = .ok (s.emit a start) := by
    unfold endToken
    rw [hleaf]
    exact congrArg (fun t : State ν => Except.ok (t.emit a start)) (into_of_mode hmode)
  have hgap : (s.emit a start).mode = .gap := (mode_emit ..).trans hmode
  cases rest with
  | nil =>
    show (s.into (.token start chars)).finish = (s.emit a start).finish
    unfold finish
    rw [hgap, mode_into]
    simp only
    rw [hend]
  | cons c rest =>
    have hconsume : (s.emit a start).consume c = (s.emit a start).startItem c := by
      unfold consume
      rw [hgap]
    rw [read_cons, read_cons, consume_delimiter start (hrest c rfl) (by simpa using hmark), hend,
      hconsume, place_emit]
    rfl

theorem consume_directive (hmode : s.mode = .gap) (hgroups : s.groups = []) (start : Position) :
    (s.into (.token start ['!'])).consume '(' = .ok (s.openGroup true start) := by
  cases s
  cases hmode
  cases hgroups
  rfl

theorem consume_quoted {start : Position} {chars : List Char} (hmode : s.mode = .quoted start chars)
    {c : Char} (hquote : c ≠ '"') (hslash : c ≠ '\\') :
    s.consume c = .ok (s.into (.quoted start (c :: chars))) := by
  unfold consume
  rw [hmode]
  simp only
  rfl

theorem consume_slash {start : Position} {chars : List Char} (hmode : s.mode = .quoted start chars) :
    s.consume '\\' = .ok (s.into (.escape start chars)) := by
  unfold consume
  rw [hmode]
  rfl

theorem consume_escape (s : State ν) (start : Position) (chars : List Char) {c d : Char}
    (h : unescape? c = some d) :
    (s.into (.escape start chars)).consume c = .ok (s.into (.quoted start (d :: chars))) := by
  unfold consume
  rw [mode_into]
  simp only [h]
  rfl

theorem mem_escapes_iff (c d : Char) :
    (c, d) ∈ [('"', '"'), ('\\', '\\'), ('n', '\n'), ('t', '\t')] ↔ unescape? c = some d := by
  unfold unescape?
  split <;> simp_all [eq_comm]

theorem consume_endQuote (hmode : s.mode = .gap) {start : Position} {chars : List Char} :
    (s.into (.quoted start chars)).consume '"' =
      .ok (s.emit (.str (String.ofList chars.reverse)) start) := by
  cases s
  cases hmode
  rfl

theorem read_quoted {start : Position} {chars : List Char} (hmode : s.mode = .quoted start chars)
    {cs text : List Char} (h : Quoted cs text) (rest : List Char) : s.read (cs ++ rest) =
      ((s.after cs).into (.quoted start (text.reverse ++ chars))).read rest := by
  induction h generalizing s chars with
  | nil =>
    rw [List.reverse_nil, List.nil_append, List.nil_append, ← hmode]
    rfl
  | plain hquote hslash _ ih =>
    rw [List.cons_append, read_of_consume (consume_quoted hmode hquote hslash) rfl, after_into,
      ih (mode_into _ _)]
    simp
  | escape hescape _ ih =>
    rw [List.cons_append, List.cons_append, read_of_consume (consume_slash hmode) rfl, after_into,
      read_of_consume (consume_escape _ start chars ((mem_escapes_iff ..).1 hescape)) rfl, after_into,
      ih (mode_into _ _)]
    simp

end State

open State

/-! ## Items and rows -/

/-- What stands behind a token starts with a delimiter. -/
theorem Apart.ends {cs rest : List Char} (h : Apart cs rest) (hne : cs ≠ [])
    (hbare : ∀ c ∈ cs, isDelimiter c = false) : ∀ c ∈ rest.head?, isDelimiter c = true := by
  intro c hc
  have hlast := h (cs.getLast hne) (List.getLast?_eq_some_getLast hne) c hc
  rw [hbare _ (List.getLast_mem hne)] at hlast
  exact hlast.resolve_left Bool.false_ne_true

theorem Apart.close {cs rest : List Char} (h : Apart cs rest) (more : List Char) :
    Apart cs (rest ++ ')' :: more) := by
  intro c hc d hd
  cases rest with
  | nil =>
    cases hd
    exact .inr rfl
  | cons e rest => exact h c hc d hd

theorem apart_concat {d : Char} (hd : isDelimiter d = true) (cs rest : List Char) :
    Apart (cs ++ [d]) rest := by
  intro c hc
  rw [List.getLast?_concat] at hc
  cases hc
  exact fun _ _ => .inl hd

theorem reverse_eq_mark {c : Char} {cs : List Char} : cs.reverse ++ [c] = ['!'] ↔ c :: cs = ['!'] := by
  rw [← List.reverse_cons, List.reverse_eq_iff, List.reverse_singleton]

mutual

/-- Reading an item adds its atom. -/
theorem Item.read {cs : List Char} {a : Atom ν} (h : Item cs a) {s : State ν} (hmode : s.mode = .gap)
    {rest : List Char} (hapart : Apart cs rest)
    (hmark : s.groups = [] → cs = ['!'] → rest.head? ≠ some '(') :
    s.read (cs ++ rest) = (s.put a cs).read rest := by
  cases h with
  | token hne hbare hdenotes =>
    have hends := hapart.ends hne hbare
    obtain ⟨c, cs, rfl⟩ := List.exists_cons_of_ne_nil hne
    obtain ⟨hc, hcs⟩ := List.forall_mem_cons.1 hbare
    have hleaf : leaf? (cs.reverse ++ [c]).reverse = some a := by
      simpa using leaf?_eq_some_iff.2 hdenotes
    have hmark : s.groups = [] → cs.reverse ++ [c] = ['!'] → rest.head? ≠ some '(' :=
      fun hgroups hchars => hmark hgroups (reverse_eq_mark.1 hchars)
    rw [List.cons_append, read_of_consume (consume_token hmode hc) rfl, after_into,
      read_token (mode_into _ _) hcs, after_into, into_into, after_after,
      read_endToken (s := s.after ([c] ++ cs)) hmode hleaf hends hmark, emit_after]
    rfl
  | @quoted cs text hquoted =>
    rw [List.cons_append, read_of_consume (consume_quote hmode) rfl, List.append_assoc, after_into,
      read_quoted (mode_into _ _) hquoted, after_into, into_into, after_after, List.append_nil,
      List.cons_append]
    simp only [List.cons_append, List.nil_append]
    rw [read_of_consume (consume_endQuote (s := s.after ('"' :: cs)) hmode) (place_emit ..),
      emit_after, after_after, List.reverse_reverse]
    rfl
  | @group cs l hrow =>
    have hgroups : ((s.openGroup false s.place).after ['(']).groups ≠ [] := by simp [openGroup]
    have hgap : ((s.openGroup false s.place).after ['(']).mode = .gap := hmode
    rw [List.cons_append, read_of_consume (consume_open hmode) rfl, List.append_assoc]
    rw [List.cons_append, List.nil_append, Row.read hrow hgap hgroups]
    have hclose := consume_close (s := (((s.openGroup false s.place).after ['(']).gather l).after cs)
      ((mode_gather ..).trans hgap)
    rw [closeGroup_gather] at hclose
    rw [read_of_consume hclose ((place_emit ..).trans rfl), emit_after, after_after]
    rfl

/-- Reading the inside of a group adds its atoms to the group. -/
theorem Row.read {cs : List Char} {l : List (Atom ν)} (h : Row cs l) {s : State ν}
    (hmode : s.mode = .gap) (hgroups : s.groups ≠ []) (rest : List Char) :
    s.read (cs ++ ')' :: rest) = ((s.gather l).after cs).read (')' :: rest) := by
  cases h with
  | nil hgap => rw [read_gap hmode hgap, gather_nil]
  | @cons gap cs more a l hgap hitem hapart hrow =>
    rw [List.append_assoc, read_gap hmode hgap, List.append_assoc,
      Item.read hitem (s := s.after gap) hmode (hapart.close rest) (fun h => absurd h hgroups),
      Row.read hrow (s := (s.after gap).put a cs) ((mode_put ..).trans hmode)
        (groups_put_ne_nil (s := s.after gap) hgroups a cs), put_gather hgroups, after_after, List.append_assoc]

end

theorem Row.read_directive {cs : List Char} {l : List (Atom ν)} (h : Row cs l) {s : State ν}
    (hmode : s.mode = .gap) (hgroups : s.groups = []) (rest : List Char) :
    s.read ('!' :: '(' :: (cs ++ ')' :: rest)) = (s.direct l ('!' :: '(' :: (cs ++ [')']))).read rest := by
  have hmark := consume_token (s := s) hmode (c := '!') rfl
  have hopen := consume_directive (s := s.after ['!']) hmode hgroups s.place
  have hgap : (((s.after ['!']).openGroup true s.place).after ['(']).mode = .gap := hmode
  have hclose := consume_close (s := ((((s.after ['!']).openGroup true s.place).after ['(']).gather l).after cs)
    ((mode_gather ..).trans hgap)
  rw [closeGroup_directive] at hclose
  rw [read_of_consume hmark rfl, after_into, read_of_consume hopen rfl,
    h.read hgap (by simp [openGroup]), read_of_consume hclose rfl]
  congr 1
  simp [direct, after]

/-! ## Whole texts -/

theorem LastGap.read {cs : List Char} (h : LastGap cs) {s : State ν} (hmode : s.mode = .gap)
    (hgroups : s.groups = []) : ∃ t, s.read cs = .ok t ∧ t.statements = s.statements := by
  cases h with
  | gap hgap =>
    refine ⟨s.after cs, ?_, rfl⟩
    have hread := read_gap hmode hgap []
    rwa [List.append_nil, read_nil (s := s.after cs) (.inl hmode) hgroups] at hread
  | @comment gap line hgap hline =>
    refine ⟨(s.after (gap ++ [';'] ++ line)).into .comment, ?_, rfl⟩
    have hread := read_comment (s := (s.after (gap ++ [';'])).into .comment) rfl hline []
    rw [List.append_nil, after_into, after_after,
      read_nil (s := (s.after (gap ++ [';'] ++ line)).into .comment) (.inr rfl) hgroups] at hread
    rw [read_gap hmode hgap, read_of_consume (consume_semicolon (s := s.after gap) hmode) rfl, after_into,
      after_after, hread]

/-- Reading a text gives the statements that it stands for. -/
theorem Layout.read {cs : List Char} {l : List (Statement ν)} (h : Layout cs l) {s : State ν}
    (hmode : s.mode = .gap) (hgroups : s.groups = []) : ∃ t, s.read cs = .ok t ∧
      t.statements.map Prod.fst = l.reverse ++ s.statements.map Prod.fst := by
  induction h generalizing s with
  | nil hgap =>
    obtain ⟨t, ht, hstatements⟩ := hgap.read hmode hgroups
    exact ⟨t, ht, by rw [hstatements]; rfl⟩
  | @assert gap cs rest a l hgap hitem hapart hmark _ ih =>
    have hput := put_of_groups (s := s.after gap) hgroups a cs
    obtain ⟨t, ht, hstatements⟩ := ih (s := (s.after gap).put a cs) ((mode_put ..).trans hmode)
      (by rw [hput]; exact hgroups)
    refine ⟨t, ?_, ?_⟩
    · rw [read_gap hmode hgap, Item.read hitem (s := s.after gap) hmode hapart fun _ => hmark, ht]
    · rw [hstatements, hput, List.reverse_cons, List.append_assoc]
      rfl
  | @evaluate gap cs rest children l hgap hrow _ ih =>
    obtain ⟨t, ht, hstatements⟩ := ih (s := (s.after gap).direct children ('!' :: '(' :: (cs ++ [')'])))
      hmode hgroups
    refine ⟨t, ?_, ?_⟩
    · rw [read_gap hmode hgap, hrow.read_directive (s := s.after gap) hmode hgroups, ht]
    · rw [hstatements, List.reverse_cons, List.append_assoc]
      rfl

/-! ## What is read -/

/-- Every text starts with a gap, behind which there is nothing, a last comment or something else. -/
theorem exists_gap (cs : List Char) : ∃ gap rest, cs = gap ++ rest ∧ Gap gap ∧
    (rest = [] ∨ (∃ line, rest = ';' :: line ∧ '\n' ∉ line) ∨
      ∃ c more, rest = c :: more ∧ Text.isBlank c = false ∧ c ≠ ';') := by
  induction hn : cs.length using Nat.strong_induction_on generalizing cs with
  | _ n ih =>
  cases cs with
  | nil => exact ⟨[], [], rfl, .nil, .inl rfl⟩
  | cons c cs =>
    rw [List.length_cons] at hn
    by_cases hblank : Text.isBlank c = true
    · obtain ⟨gap, rest, rfl, hgap, hrest⟩ := ih cs.length (by omega) cs rfl
      exact ⟨c :: gap, rest, rfl, .blank hblank hgap, hrest⟩
    by_cases hcomment : c = ';'
    · subst hcomment
      by_cases hend : '\n' ∈ cs
      · obtain ⟨line, more, rfl, hline⟩ := List.eq_append_cons_of_mem hend
        rw [List.length_append, List.length_cons] at hn
        obtain ⟨gap, rest, rfl, hgap, hrest⟩ := ih more.length (by omega) more rfl
        exact ⟨';' :: (line ++ '\n' :: gap), rest, by simp, .comment hline hgap, hrest⟩
      · exact ⟨[], _, rfl, .nil, .inr (.inl ⟨cs, rfl, hend⟩)⟩
    · exact ⟨[], _, rfl, .nil, .inr (.inr ⟨c, cs, rfl, Bool.not_eq_true _ ▸ hblank, hcomment⟩)⟩

/-- A text that is read to its end has no open group there. -/
theorem groups_of_read_nil {s t : State ν} (hmode : s.mode = .gap ∨ s.mode = .comment)
    (h : s.read [] = .ok t) : s.groups = [] := by
  change s.finish = .ok t at h
  unfold finish at h
  by_contra hgroups
  have hg := List.getLast?_eq_some_getLast hgroups
  rcases hmode with hmode | hmode <;> simp [hmode, bind, Except.bind, hg] at h

theorem not_read_nil {s t : State ν} {start : Position} {chars : List Char}
    (hmode : s.mode = .quoted start chars ∨ s.mode = .escape start chars) : s.read [] ≠ .ok t := by
  show s.finish ≠ .ok t
  unfold finish
  rcases hmode with hmode | hmode <;> rw [hmode] <;> simp [bind, Except.bind]

/-- A quoted text that is read comes to its end. -/
theorem quoted_of_read {start : Position} : ∀ {cs : List Char} {s t : State ν} {chars : List Char},
    s.mode = .quoted start chars → s.read cs = .ok t →
      ∃ body text rest, cs = body ++ '"' :: rest ∧ Quoted body text
  | [], s, t, chars, hmode, h => absurd h (not_read_nil (.inl hmode))
  | c :: cs, s, t, chars, hmode, h => by
    by_cases hquote : c = '"'
    · exact ⟨[], [], cs, by rw [hquote]; rfl, .nil⟩
    by_cases hslash : c = '\\'
    · rw [hslash, read_of_consume (consume_slash hmode) rfl, after_into] at h
      match cs, h with
      | [], h => exact absurd h (not_read_nil (.inr (mode_into _ _)))
      | d :: cs, h =>
        cases hd : unescape? d with
        | none =>
          rw [read_cons] at h
          obtain ⟨u, hu, -⟩ := ok_of_bind h
          unfold consume at hu
          rw [mode_into] at hu
          simp only [hd] at hu
          cases hu
        | some e =>
          rw [read_of_consume (consume_escape _ start chars hd) rfl, after_into] at h
          obtain ⟨body, text, rest, rfl, hbody⟩ := quoted_of_read (mode_into _ _) h
          exact ⟨'\\' :: d :: body, e :: text, rest, by rw [hslash]; rfl,
            .escape ((mem_escapes_iff ..).2 hd) hbody⟩
    · rw [read_of_consume (consume_quoted hmode hquote hslash) rfl, after_into] at h
      obtain ⟨body, text, rest, hrest, hbody⟩ := quoted_of_read (mode_into _ _) h
      exact ⟨c :: body, c :: text, rest, by rw [hrest]; rfl, .plain hquote hslash hbody⟩

/-- A token that is read denotes a leaf, unless it is the mark of a directive. -/
theorem denotes_of_read {s t : State ν} {start : Position} {chars rest : List Char}
    (hrest : ∀ c ∈ rest.head?, isDelimiter c = true)
    (hmark : s.groups = [] → chars = ['!'] → rest.head? ≠ some '(')
    (h : (s.into (.token start chars)).read rest = .ok t) : ∃ a : Atom ν, Denotes chars.reverse a := by
  cases hleaf : (leaf? chars.reverse : Option (Atom ν)) with
  | some a => exact ⟨a, leaf?_eq_some_iff.1 hleaf⟩
  | none =>
    have hend : (s.into (.token start chars)).endToken start chars = .error (.emptyVariable start) := by
      unfold endToken
      rw [hleaf]
    cases rest with
    | nil =>
      change (s.into (.token start chars)).finish = .ok t at h
      unfold finish at h
      rw [mode_into] at h
      simp only at h
      rw [hend] at h
      cases h
    | cons c rest =>
      rw [read_cons, consume_delimiter start (hrest c rfl) (by simpa using hmark), hend] at h
      cases h

/-- Every text starts with characters of a token, behind which it ends or has a delimiter. -/
theorem exists_bare (cs : List Char) : ∃ bare rest, cs = bare ++ rest ∧
    (∀ c ∈ bare, isDelimiter c = false) ∧ ∀ c ∈ rest.head?, isDelimiter c = true := by
  refine ⟨cs.takeWhile fun c => !isDelimiter c, cs.dropWhile fun c => !isDelimiter c,
    (List.takeWhile_append_dropWhile ..).symm, ?_, ?_⟩
  · intro c hc
    simpa using List.mem_takeWhile_imp hc
  · intro c hc
    have hhead := List.head?_dropWhile_not (fun c => !isDelimiter c) cs
    rw [hc] at hhead
    simpa using hhead

/-- Unless it is the mark of a directive, what has the characters of a token is an item. -/
theorem token_of_read {s t : State ν} (hmode : s.mode = .gap) {c : Char} {cs rest : List Char}
    (hc : isDelimiter c = false) (hcs : ∀ d ∈ cs, isDelimiter d = false)
    (hrest : ∀ d ∈ rest.head?, isDelimiter d = true)
    (hmark : s.groups = [] → c :: cs = ['!'] → rest.head? ≠ some '(')
    (h : s.read (c :: (cs ++ rest)) = .ok t) : ∃ a : Atom ν, Item (c :: cs) a := by
  rw [read_of_consume (consume_token hmode hc) rfl, after_into, read_token (mode_into _ _) hcs,
    after_into, into_into, after_after] at h
  obtain ⟨a, ha⟩ := denotes_of_read (s := s.after ([c] ++ cs)) hrest
    (fun hgroups hchars => hmark hgroups (reverse_eq_mark.1 hchars)) h
  rw [List.reverse_append, List.reverse_reverse, List.reverse_singleton] at ha
  exact ⟨a, .token (List.cons_ne_nil _ _) (List.forall_mem_cons.2 ⟨hc, hcs⟩) ha⟩

/-- Where something other than a gap starts, an item or a directive does, unless a group ends there.
The inside of a group is found by `hrow`. -/
theorem item_of_read {s t : State ν} (hmode : s.mode = .gap) {c : Char} {more : List Char}
    (hblank : Text.isBlank c = false) (hcomment : c ≠ ';') (hclose : c ≠ ')')
    (h : s.read (c :: more) = .ok t)
    (hrow : ∀ cs (u : State ν), cs.length ≤ more.length → u.mode = .gap → u.groups ≠ [] →
      u.read cs = .ok t → ∃ row l rest, cs = row ++ ')' :: rest ∧ Row row (l : List (Atom ν))) :
    (∃ cs rest, ∃ a : Atom ν, c :: more = cs ++ rest ∧ cs ≠ [] ∧ Item cs a ∧ Apart cs rest ∧
        (s.groups = [] → cs = ['!'] → rest.head? ≠ some '(')) ∨
      s.groups = [] ∧ ∃ cs rest, ∃ l : List (Atom ν), c :: more = '!' :: '(' :: (cs ++ ')' :: rest) ∧
        Row cs l := by
  by_cases hopen : c = '('
  · subst hopen
    rw [read_of_consume (consume_open hmode) rfl] at h
    obtain ⟨row, l, rest, rfl, hl⟩ := hrow more ((s.openGroup false s.place).after ['(']) le_rfl hmode
      (by simp [openGroup]) h
    exact .inl ⟨'(' :: (row ++ [')']), rest, _, by simp, by simp, .group hl,
      apart_concat (d := ')') rfl ('(' :: row) rest, by simp⟩
  by_cases hquote : c = '"'
  · subst hquote
    rw [read_of_consume (consume_quote hmode) rfl, after_into] at h
    obtain ⟨body, text, rest, rfl, hbody⟩ := quoted_of_read (mode_into _ _) h
    exact .inl ⟨'"' :: (body ++ ['"']), rest, _, by simp, by simp, .quoted hbody,
      apart_concat (d := '"') rfl ('"' :: body) rest, by simp⟩
  have hc : isDelimiter c = false := by
    simp [isDelimiter, hblank, hopen, hclose, hquote, hcomment]
  obtain ⟨cs, rest, rfl, hcs, hrest⟩ := exists_bare more
  by_cases hmark : s.groups = [] ∧ c :: cs = ['!'] ∧ rest.head? = some '('
  · obtain ⟨hgroups, hchars, hparen⟩ := hmark
    obtain ⟨rest, rfl⟩ := List.head?_eq_some_iff.1 hparen
    cases hchars
    change s.read ('!' :: '(' :: rest) = .ok t at h
    rw [read_of_consume (consume_token hmode hc) rfl, after_into,
      read_of_consume (consume_directive (s := s.after ['!']) hmode hgroups s.place) rfl] at h
    obtain ⟨row, l, rest, rfl, hl⟩ := hrow rest (((s.after ['!']).openGroup true s.place).after ['('])
      (by simp) hmode (by simp [openGroup]) h
    exact .inr ⟨hgroups, row, rest, l, rfl, hl⟩
  · have hmark : s.groups = [] → c :: cs = ['!'] → rest.head? ≠ some '(' :=
      fun hgroups hchars hparen => hmark ⟨hgroups, hchars, hparen⟩
    obtain ⟨a, ha⟩ := token_of_read hmode hc hcs hrest hmark h
    exact .inl ⟨c :: cs, rest, a, rfl, by simp, ha, fun _ _ d hd => .inr (hrest d hd), hmark⟩

theorem Apart.of_append {cs rest more : List Char} (h : Apart cs (rest ++ more)) : Apart cs rest := by
  intro c hc d hd
  obtain ⟨rest, rfl⟩ := List.head?_eq_some_iff.1 hd
  exact h c hc d rfl

/-- What is read is a layout. Inside a group it begins with a row, and the end of the group is behind. -/
theorem parts_of_read {cs : List Char} {s t : State ν} (hmode : s.mode = .gap) (h : s.read cs = .ok t) :
    (s.groups = [] → ∃ l : List (Statement ν), Layout cs l) ∧
      (s.groups ≠ [] → ∃ row l rest, cs = row ++ ')' :: rest ∧ Row row (l : List (Atom ν))) := by
  induction hn : cs.length using Nat.strong_induction_on generalizing cs s with
  | _ n ih =>
  obtain ⟨gap, rest, rfl, hgap, hrest⟩ := exists_gap cs
  rw [read_gap hmode hgap] at h
  rw [List.length_append] at hn
  rcases hrest with rfl | ⟨line, rfl, hline⟩ | ⟨c, more, rfl, hblank, hcomment⟩
  · have hgroups := groups_of_read_nil (s := s.after gap) (.inl hmode) h
    rw [List.append_nil]
    exact ⟨fun _ => ⟨[], .nil (.gap hgap)⟩, fun hne => absurd hgroups hne⟩
  · have hgroups : s.groups = [] := by
      rw [read_of_consume (consume_semicolon (s := s.after gap) hmode) rfl, after_into] at h
      have hend := read_comment (s := ((s.after gap).after [';']).into .comment) rfl hline []
      rw [List.append_nil, h] at hend
      exact groups_of_read_nil (s := (((s.after gap).after [';']).into .comment).after line) (.inr rfl)
        hend.symm
    exact ⟨fun _ => ⟨[], .nil (.comment hgap hline)⟩, fun hne => absurd hgroups hne⟩
  rw [List.length_cons] at hn
  by_cases hclose : c = ')'
  · subst hclose
    refine ⟨fun hgroups => ?_, fun _ => ⟨gap, [], more, rfl, .nil hgap⟩⟩
    rw [read_cons, consume_close (s := s.after gap) hmode] at h
    unfold closeGroup at h
    rw [groups_after, hgroups] at h
    cases h
  have hrow : ∀ cs (u : State ν), cs.length ≤ more.length → u.mode = .gap → u.groups ≠ [] →
      u.read cs = .ok t → ∃ row l rest, cs = row ++ ')' :: rest ∧ Row row (l : List (Atom ν)) := by
    intro cs u hlength hmode hgroups hread
    exact (ih cs.length (by omega) hmode hread rfl).2 hgroups
  rcases item_of_read (s := s.after gap) hmode hblank hcomment hclose h hrow with
    ⟨cs, rest, a, hcs, hne, hitem, hapart, hmark⟩ | ⟨hgroups, cs, rest, l, hcs, hl⟩
  · have hlength : rest.length < n := by
      have := congrArg List.length hcs
      rw [List.length_append, List.length_cons] at this
      have := List.length_pos_iff.2 hne
      omega
    rw [hcs, hitem.read (s := s.after gap) hmode hapart hmark] at h
    have hparts := ih rest.length hlength (s := (s.after gap).put a cs) ((mode_put ..).trans hmode) h rfl
    rw [hcs]
    constructor
    · intro hgroups
      have hput := put_of_groups (s := s.after gap) hgroups a cs
      obtain ⟨l, hl⟩ := hparts.1 (by rw [hput]; exact hgroups)
      exact ⟨_, .assert hgap hitem hapart (hmark hgroups) hl⟩
    · intro hgroups
      obtain ⟨row, l, rest', rfl, hl⟩ := hparts.2 (groups_put_ne_nil (s := s.after gap) hgroups a cs)
      exact ⟨gap ++ (cs ++ row), a :: l, rest', by simp, .cons hgap hitem hapart.of_append hl⟩
  · have hlength : rest.length < n := by
      have := congrArg List.length hcs
      simp only [List.length_append, List.length_cons] at this
      omega
    rw [hcs, hl.read_directive (s := s.after gap) hmode hgroups] at h
    have hparts := ih rest.length hlength
      (s := (s.after gap).direct l ('!' :: '(' :: (cs ++ [')']))) hmode h rfl
    refine ⟨fun _ => ?_, fun hne => absurd hgroups hne⟩
    obtain ⟨m, hm⟩ := hparts.1 hgroups
    rw [hcs]
    exact ⟨_, .evaluate hgap hl hm⟩

end Reader

open Reader

/-- The reader accepts exactly the layouts, each with the statements that it stands for. -/
theorem readProgram_eq_ok_iff (text : String) (l : List (Statement ν)) :
    readProgram text = .ok l ↔ Layout text.toList l := by
  have hstart {l : List (Statement ν)} (h : Layout text.toList l) : readProgram text = .ok l := by
    obtain ⟨t, ht, hstatements⟩ := h.read (s := {}) rfl rfl
    have hread : readAll text = .ok t := ht
    rw [readProgram, hread]
    refine congrArg Except.ok ?_
    show t.statements.reverse.map Prod.fst = l
    rw [List.map_reverse, hstatements]
    simp
  constructor
  · intro h
    obtain ⟨t, ht, -⟩ := ok_of_map h
    obtain ⟨m, hm⟩ := (parts_of_read (s := {}) rfl ht).1 rfl
    have hm' := hstart hm
    rw [h] at hm'
    cases hm'
    exact hm
  · exact hstart

end Atomspace
