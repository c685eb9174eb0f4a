import Atomspace.Proofs.Layout
/-!
# What comes of a character

Everything the reader does with one character is listed once (`consumes_consume`), as is all that comes
of the end of a text (`finishes_finish`): what the next state is, or which error there is. Where a
character starts something new, a bare token before it is complete first (`Ends`), and from there on only
the character counts (`Starts`).
-/

namespace Atomspace

variable {ν : Type} [Scalar ν]

namespace Reader

namespace State

variable {s t u : State ν} {c : Char} {e : ReadError}

/-- Where the outermost open group starts. -/
def outermost (s : State ν) : Option Position :=
  s.groups.getLast?.map Group.place

/-! ## One character -/

/-- The state with a token completed that a character ends; the character starts something new. -/
inductive Ends (s : State ν) (c : Char) : State ν → Prop
  | gap : s.mode = .gap → Ends s c s
  | token {start : Position} {chars : List Char} {a : Atom ν} : s.mode = .token start chars →
      isDelimiter c = true → (s.groups = [] → chars = ['!'] → c ≠ '(') → leaf? chars.reverse = some a →
      Ends s c ((s.into .gap).emit a start)

/-- What comes of a character that starts something new. -/
inductive Starts (u : State ν) (c : Char) : Except ReadError (State ν) → Prop
  | blank : Text.isBlank c = true → Starts u c (.ok u)
  | comment : c = ';' → Starts u c (.ok (u.into .comment))
  | openGroup : c = '(' → Starts u c (.ok (u.openGroup false u.place))
  | closeGroup {r : Except ReadError (State ν)} : c = ')' → u.closeGroup = r → Starts u c r
  | quoted : c = '"' → Starts u c (.ok (u.into (.quoted u.place [])))
  | token : isDelimiter c = false → Starts u c (.ok (u.into (.token u.place [c])))

/-- What comes of a character. -/
inductive Consumes (s : State ν) (c : Char) : Except ReadError (State ν) → Prop
  | starts {u : State ν} {r : Except ReadError (State ν)} : Ends s c u → Starts u c r → Consumes s c r
  | comment : s.mode = .comment → c ≠ '\n' → Consumes s c (.ok s)
  | newline : s.mode = .comment → c = '\n' → Consumes s c (.ok (s.into .gap))
  | token {start : Position} {chars : List Char} : s.mode = .token start chars → isDelimiter c = false →
      Consumes s c (.ok (s.into (.token start (c :: chars))))
  | directive {start : Position} : s.mode = .token start ['!'] → c = '(' → s.groups = [] →
      Consumes s c (.ok ((s.into .gap).openGroup true start))
  | nameless {start : Position} {chars : List Char} : s.mode = .token start chars → isDelimiter c = true →
      (leaf? chars.reverse : Option (Atom ν)) = none → Consumes s c (.error (.emptyVariable start))
  | endQuote {start : Position} {chars : List Char} : s.mode = .quoted start chars → c = '"' →
      Consumes s c (.ok ((s.into .gap).emit (.str (String.ofList chars.reverse)) start))
  | slash {start : Position} {chars : List Char} : s.mode = .quoted start chars → c = '\\' →
      Consumes s c (.ok (s.into (.escape start chars)))
  | quoted {start : Position} {chars : List Char} : s.mode = .quoted start chars → c ≠ '"' → c ≠ '\\' →
      Consumes s c (.ok (s.into (.quoted start (c :: chars))))
  | escape {start : Position} {chars : List Char} {d : Char} : s.mode = .escape start chars →
      unescape? c = some d → Consumes s c (.ok (s.into (.quoted start (d :: chars))))
  | badEscape {start : Position} {chars : List Char} : s.mode = .escape start chars →
      unescape? c = none → Consumes s c (.error (.invalidEscape c s.place))

omit [Scalar ν] in
theorem starts_startItem (hmode : u.mode = .gap) (c : Char) : Starts u c (u.startItem c) := by
  have hgap : { u with mode := .gap } = u := into_of_mode hmode
  unfold startItem
  rw [hgap]
  split
  · exact .blank ‹_›
  · rename_i hblank
    split
    · exact .comment rfl
    · exact .openGroup rfl
    · exact .closeGroup rfl rfl
    · exact .quoted rfl
    · rename_i hcomment hopen hclose hquote
      refine .token ?_
      simp only [isDelimiter, Bool.or_eq_false_iff, beq_eq_false_iff_ne]
      exact ⟨⟨⟨⟨Bool.not_eq_true _ ▸ hblank, hopen⟩, hclose⟩, hquote⟩, hcomment⟩

theorem consume_of_mode_token {start : Position} {chars : List Char} (hmode : s.mode = .token start chars) :
    s.consume c =
      if isDelimiter c = false then .ok (s.into (.token start (c :: chars)))
      else if c = '(' ∧ chars = ['!'] ∧ s.groups = [] then .ok ((s.into .gap).openGroup true start)
      else (s.endToken start chars).bind fun u => u.startItem c := by
  unfold consume
  rw [hmode]
  simp only [Bool.not_eq_true', List.isEmpty_iff]
  rfl

theorem consumes_consume (s : State ν) (c : Char) : Consumes s c (s.consume c) := by
  cases hmode : s.mode with
  | gap =>
    have hconsume : s.consume c = s.startItem c := by
      unfold consume
      rw [hmode]
    exact hconsume ▸ .starts (.gap hmode) (starts_startItem hmode c)
  | comment =>
    unfold consume
    rw [hmode]
    simp only
    split
    · exact .newline hmode ‹_›
    · exact .comment hmode ‹_›
  | token start chars =>
    rw [consume_of_mode_token hmode]
    split
    · exact .token hmode ‹_›
    · rename_i hdelimiter
      rw [Bool.not_eq_false] at hdelimiter
      split
      · rename_i hmark
        obtain ⟨hopen, rfl, hgroups⟩ := hmark
        exact .directive hmode hopen hgroups
      · rename_i hmark
        unfold endToken
        split
        · rename_i a ha
          refine .starts (.token hmode hdelimiter ?_ ha) (starts_startItem (mode_emit ..) c)
          exact fun hgroups hchars hopen => hmark ⟨hopen, hchars, hgroups⟩
        · exact .nameless hmode hdelimiter ‹_›
  | quoted start chars =>
    unfold consume
    rw [hmode]
    simp only
    split
    · exact .endQuote hmode rfl
    · exact .slash hmode rfl
    · exact .quoted hmode ‹_› ‹_›
  | escape start chars =>
    unfold consume
    rw [hmode]
    simp only
    split
    · exact .escape hmode ‹_›
    · exact .badEscape hmode ‹_›

/-! ## Open groups -/

section
omit [Scalar ν]

theorem outermost_eq_none_iff : s.outermost = none ↔ s.groups = [] := by
  simp [outermost]

theorem outermost_emit (s : State ν) (a : Atom ν) (start : Position) :
    (s.emit a start).outermost = s.outermost := by
  obtain ⟨place, mode, groups, statements⟩ := s
  match groups with
  | [] | [_] | _ :: _ :: _ => rfl

/-- A group that is opened is the outermost one only if there is no other. -/
theorem outermost_openGroup (s : State ν) (directive : Bool) (start : Position) :
    (s.openGroup directive start).outermost = some (s.outermost.getD start) := by
  obtain ⟨place, mode, groups, statements⟩ := s
  match groups with
  | [] => rfl
  | g :: rest =>
    obtain ⟨last, hlast⟩ := Option.isSome_iff_exists.1 (List.getLast?_isSome.2 (List.cons_ne_nil g rest))
    simp [outermost, openGroup, hlast]

/-- The innermost group is closed, if there is one. -/
theorem closeGroup_cases (s : State ν) :
    (s.groups = [] ∧ s.closeGroup = .error (.unexpectedClose s.place)) ∨
      ∃ g rest t, s.groups = g :: rest ∧ s.closeGroup = .ok t ∧ t.mode = s.mode ∧
        t.outermost = rest.getLast?.map Group.place := by
  obtain ⟨place, mode, groups, statements⟩ := s
  cases groups with
  | nil => exact .inl ⟨rfl, rfl⟩
  | cons g rest =>
    refine .inr ⟨g, rest, ?_⟩
    cases hdirective : g.directive with
    | true => exact ⟨_, rfl, if_pos hdirective, rfl, rfl⟩
    | false => exact ⟨_, rfl, if_neg (by simp [hdirective]), mode_emit .., outermost_emit ..⟩

theorem outermost_closeGroup {p : Position} (h : s.closeGroup = .ok t) (ht : t.outermost = some p) :
    s.outermost = some p := by
  rcases s.closeGroup_cases with ⟨-, hclose⟩ | ⟨g, rest, u, hgroups, hclose, -, houter⟩ <;>
    rw [h] at hclose <;> cases hclose
  rw [houter] at ht
  rw [outermost, hgroups]
  cases rest with
  | nil => cases ht
  | cons _ _ => exact ht

theorem mode_closeGroup (h : s.closeGroup = .ok t) : t.mode = s.mode := by
  rcases s.closeGroup_cases with ⟨-, hclose⟩ | ⟨g, rest, u, -, hclose, hmode, -⟩ <;>
    rw [h] at hclose <;> cases hclose
  exact hmode

theorem closeGroup_error (h : s.closeGroup = .error e) : s.groups = [] ∧ e = .unexpectedClose s.place := by
  rcases s.closeGroup_cases with ⟨hgroups, hclose⟩ | ⟨g, rest, u, -, hclose, -⟩ <;>
    rw [h] at hclose <;> cases hclose
  exact ⟨hgroups, rfl⟩

end

/-! ## The end of a text -/

theorem finish_of_gap (hmode : s.mode = .gap ∨ s.mode = .comment) :
    s.finish = match s.outermost with
      | none => .ok s
      | some p => .error (.unclosed p) := by
  unfold finish outermost
  rcases hmode with hmode | hmode <;> simp only [hmode, bind, Except.bind] <;> cases s.groups.getLast? <;> rfl

theorem finish_of_leaf {start : Position} {chars : List Char} {a : Atom ν}
    (hmode : s.mode = .token start chars) (hleaf : leaf? chars.reverse = some a) :
    s.finish = ((s.into .gap).emit a start).finish := by
  unfold finish
  rw [hmode, mode_emit, mode_into]
  simp only [endToken, hleaf]
  rfl

/-- What comes of the end of a text. -/
inductive Finishes (s : State ν) : Except ReadError (State ν) → Prop
  | ok {t : State ν} : s.outermost = none → Finishes s (.ok t)
  | unclosed {p : Position} : s.outermost = some p → Finishes s (.error (.unclosed p))
  | nameless {start : Position} {chars : List Char} : s.mode = .token start chars →
      (leaf? chars.reverse : Option (Atom ν)) = none → Finishes s (.error (.emptyVariable start))
  | unterminated {start : Position} {chars : List Char} :
      s.mode = .quoted start chars ∨ s.mode = .escape start chars →
      Finishes s (.error (.unterminatedText start))

theorem finishes_finish (s : State ν) : Finishes s s.finish := by
  have hgap {u : State ν} (hmode : u.mode = .gap ∨ u.mode = .comment) (hu : u.outermost = s.outermost) :
      Finishes s u.finish := by
    rw [finish_of_gap hmode, hu]
    split
    · exact .ok ‹_›
    · exact .unclosed ‹_›
  cases hmode : s.mode with
  | gap => exact hgap (.inl hmode) rfl
  | comment => exact hgap (.inr hmode) rfl
  | token start chars =>
    cases hleaf : (leaf? chars.reverse : Option (Atom ν)) with
    | some a => exact finish_of_leaf hmode hleaf ▸ hgap (.inl (mode_emit ..)) (outermost_emit ..)
    | none =>
      unfold finish
      simp only [hmode, endToken, hleaf]
      exact .nameless hmode hleaf
  | quoted start chars =>
    unfold finish
    rw [hmode]
    exact .unterminated (.inl hmode)
  | escape start chars =>
    unfold finish
    rw [hmode]
    exact .unterminated (.inr hmode)

theorem groups_of_finish (h : s.finish = .ok t) : s.groups = [] := by
  have hfinish := finishes_finish s
  rw [h] at hfinish
  cases hfinish with
  | ok hnone => exact outermost_eq_none_iff.1 hnone

/-! ## Starting something new -/

namespace Ends

theorem mode (h : Ends s c u) : u.mode = .gap := by
  cases h with
  | gap hmode => exact hmode
  | token => exact mode_emit ..

theorem place (h : Ends s c u) : u.place = s.place := by
  cases h with
  | gap => rfl
  | token => exact place_emit ..

theorem outermost (h : Ends s c u) : u.outermost = s.outermost := by
  cases h with
  | gap => rfl
  | token => exact outermost_emit ..

theorem groups_eq_nil_iff (h : Ends s c u) : u.groups = [] ↔ s.groups = [] := by
  rw [← outermost_eq_none_iff, ← outermost_eq_none_iff, h.outermost]

theorem finish (h : Ends s c u) : s.finish = u.finish := by
  cases h with
  | gap => rfl
  | token hmode _ _ hleaf => exact finish_of_leaf hmode hleaf

theorem read (h : Ends s c u) (rest : List Char) : s.read (c :: rest) = u.read (c :: rest) := by
  cases h with
  | gap => rfl
  | @token start chars a hmode hdelimiter hmark hleaf =>
    have hs : (s.into .gap).into (.token start chars) = s := into_of_mode hmode
    have hhead : ∀ d ∈ (c :: rest).head?, isDelimiter d = true := by
      rintro d ⟨⟩
      exact hdelimiter
    have hread : ((s.into .gap).into (.token start chars)).read (c :: rest) =
        ((s.into .gap).emit a start).read (c :: rest) :=
      read_endToken rfl hleaf hhead fun hgroups hchars hd => hmark hgroups hchars (Option.some.inj hd)
    rwa [hs] at hread

end Ends

end State

end Reader

end Atomspace
