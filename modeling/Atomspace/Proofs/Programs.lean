import Atomspace.Program
import Atomspace.Proofs.Exact
import Atomspace.Proofs.Layout
/-!
# Programs line by line

A program with an error in it does nothing, and a program of two texts, one below the other, does what
the first does and then what the second does (`Evaluator.runProgram_lines`).

The reader sees the two texts of such a program apart, whatever the first one ends with: a newline
closes a comment (`LastGap.gap_newline`), ends a token, and keeps a bare `!` from a group that follows
(`Layout.append`).
-/

namespace Atomspace

variable {ν : Type} [Scalar ν]

namespace Reader

/-! ## One text below another -/

theorem isBlank_newline : Text.isBlank '\n' = true := by
  rfl

theorem gap_newline {cs : List Char} (h : Gap cs) : Gap ('\n' :: cs) :=
  .blank isBlank_newline h

theorem Gap.append {cs ds : List Char} (h : Gap cs) (h' : Gap ds) : Gap (cs ++ ds) := by
  induction h with
  | nil => exact h'
  | blank hc _ ih => exact .blank hc ih
  | comment hline _ ih =>
    rw [List.cons_append, List.append_assoc, List.cons_append]
    exact .comment hline ih

/-- Space behind the last item is space between items once a newline follows: the newline ends an
open comment. -/
theorem LastGap.gap_newline {cs ds : List Char} (h : LastGap cs) (hd : Gap ds) : Gap (cs ++ '\n' :: ds) := by
  cases h with
  | gap hgap => exact hgap.append (Reader.gap_newline hd)
  | comment hgap hline =>
    rw [List.append_assoc, List.cons_append]
    exact hgap.append (.comment hline hd)

/-- More space at the start changes nothing. -/
theorem Layout.gap_append {gap cs : List Char} {l : List (Statement ν)} (h : Layout cs l)
    (hgap : ∀ {ds : List Char}, Gap ds → Gap (gap ++ ds)) : Layout (gap ++ cs) l := by
  cases h with
  | nil hlast =>
    cases hlast with
    | gap h => exact .nil (.gap (hgap h))
    | comment h hline =>
      rw [← List.append_assoc]
      exact .nil (.comment (hgap h) hline)
  | assert h hitem hapart hmark hrest =>
    rw [← List.append_assoc]
    exact .assert (hgap h) hitem hapart hmark hrest
  | evaluate h hrow hrest =>
    rw [← List.append_assoc]
    exact .evaluate (hgap h) hrow hrest

/-- Nothing that stands before a newline goes on behind it. -/
theorem Apart.append_newline {cs rest : List Char} (h : Apart cs rest) (more : List Char) :
    Apart cs (rest ++ '\n' :: more) := by
  intro c hc d hd
  cases rest with
  | nil =>
    cases hd
    exact .inr rfl
  | cons e rest => exact h c hc d hd

theorem head?_append_newline {rest : List Char} (h : rest.head? ≠ some '(') (more : List Char) :
    (rest ++ '\n' :: more).head? ≠ some '(' := by
  cases rest with
  | nil => simp
  | cons c rest => exact h

/-- Two texts, one below the other, have the statements of both. -/
theorem Layout.append {cs ds : List Char} {l m : List (Statement ν)} (h : Layout cs l)
    (h' : Layout ds m) : Layout (cs ++ '\n' :: ds) (l ++ m) := by
  induction h with
  | nil hlast =>
    rw [List.append_cons]
    refine h'.gap_append fun hgap => ?_
    rw [List.append_assoc]
    exact hlast.gap_newline hgap
  | assert hgap hitem hapart hmark _ ih =>
    simp only [List.append_assoc, List.cons_append]
    exact .assert hgap hitem (hapart.append_newline ds) (fun hcs => head?_append_newline (hmark hcs) ds) ih
  | evaluate hgap hrow _ ih =>
    simp only [List.append_assoc, List.cons_append]
    exact .evaluate hgap hrow ih

end Reader

/-- Two texts that can be read, one below the other, are read as the one and then the other. -/
theorem readProgram_lines {s t : String} {l m : List (Statement ν)} (hs : readProgram s = .ok l)
    (ht : readProgram t = .ok m) : readProgram (s ++ "\n" ++ t) = .ok (l ++ m) := by
  rw [readProgram_eq_ok_iff] at *
  simpa using hs.append ht

namespace Evaluator

/-! ## One run after another -/

/-- Statements in two parts are run one part after the other. -/
theorem execute_append (e : Evaluator ν) (l m : List (Statement ν)) (s : Space ν) :
    e.execute (l ++ m) s =
      ((e.execute l s).1 ++ (e.execute m (e.execute l s).2).1, (e.execute m (e.execute l s).2).2) := by
  induction l generalizing s with
  | nil => rfl
  | cons statement l ih =>
    cases statement with
    | assert a => exact ih _
    | evaluate a =>
      simp only [List.cons_append, execute]
      rw [ih]

theorem runProgram_of_error {e : Evaluator ν} {text : String} {error : ReadError}
    (h : readProgram (ν := ν) text = .error error) (s : Space ν) : e.runProgram text s = (.error error, s) := by
  rw [runProgram, h]

theorem runProgram_of_ok {e : Evaluator ν} {text : String} {l : List (Statement ν)}
    (h : readProgram text = .ok l) (s : Space ν) :
    e.runProgram text s = (.ok (e.execute l s).1, (e.execute l s).2) := by
  rw [runProgram, h]

/-- A program fails just as its text fails to be read, and then leaves the space as it was. Of two
programs that can be read, one below the other, the run is the run of the first, and from the space that
it leaves the run of the second: its outputs are the outputs of both, and its space is the last one. -/
theorem runProgram_lines (e : Evaluator ν) (s t : String) (space : Space ν) :
    (∀ error, readProgram (ν := ν) s = .error error → e.runProgram s space = (.error error, space)) ∧
    ∀ l m, readProgram (ν := ν) s = .ok l → readProgram (ν := ν) t = .ok m →
      ∃ first second, (e.runProgram s space).1 = .ok first ∧
        (e.runProgram t (e.runProgram s space).2).1 = .ok second ∧
        e.runProgram (s ++ "\n" ++ t) space =
          (.ok (first ++ second), (e.runProgram t (e.runProgram s space).2).2) := by
  refine ⟨fun error herror => runProgram_of_error herror space, fun l m hs ht => ?_⟩
  have hfirst := runProgram_of_ok (e := e) hs space
  have hsecond := runProgram_of_ok (e := e) ht (e.execute l space).2
  have hboth := runProgram_of_ok (e := e) (readProgram_lines hs ht) space
  rw [execute_append] at hboth
  refine ⟨(e.execute l space).1, (e.execute m (e.execute l space).2).1, ?_, ?_, ?_⟩
  · rw [hfirst]
  · rw [hfirst, hsecond]
  · rw [hfirst, hsecond, hboth]

/-- The standard code with the default parameters. -/
def usual : Evaluator (Exact fun _ => 1) where
  config := default
  registry := .standard

/-- A mark at the end of a text makes no directive of the group below it, and a comment at its end does
not hide it. A group that stays open is an error. -/
theorem runProgram_lines_marked :
    usual.runProgram "a (b" default = (.error (.unclosed ⟨1, 3⟩), default) ∧
    ∃ first second, (usual.runProgram "!(f) ! ; marks" default).1 = .ok first ∧
      (usual.runProgram "(f)" (usual.runProgram "!(f) ! ; marks" default).2).1 = .ok second ∧
      usual.runProgram ("!(f) ! ; marks" ++ "\n" ++ "(f)") default =
        (.ok (first ++ second), (usual.runProgram "(f)" (usual.runProgram "!(f) ! ; marks" default).2).2) := by
  constructor
  · refine (runProgram_lines usual "a (b" "" default).1 _ ?_
    rfl
  · refine (runProgram_lines usual _ _ default).2 [.evaluate (.expr [.symbol "f"]), .assert (.symbol "!")]
      [.assert (.expr [.symbol "f"])] ?_ ?_
    · rfl
    · rfl

end Evaluator

end Atomspace
