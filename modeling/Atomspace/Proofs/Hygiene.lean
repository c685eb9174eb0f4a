import Atomspace.Proofs.Retrieval
/-!
# Names of pattern variables

How the variables of a pattern are called does not matter to a query: under other names, kept apart
from each other, it finds the same atoms with the same scores and leaves the same space behind
(`query_relabel`). There are two conditions. No name may be one that the query gives to a stored
variable, and the names in a head that the index looks up may not change.
-/

namespace Atomspace

variable {ν : Type}

namespace Atom

/-! ## Other names -/

/-- The atom with other names for its variables. -/
def relabel (f : String → String) (a : Atom ν) : Atom ν :=
  a.bind fun x => var (f x)

theorem bind_relabel (a : Atom ν) (f : String → String) (s : String → Atom ν) :
    (a.relabel f).bind s = a.bind fun x => s (f x) :=
  a.bind_bind _ s

theorem relabel_eq_self {a : Atom ν} {f : String → String} (h : ∀ x ∈ a.vars, f x = x) :
    a.relabel f = a := by
  refine (a.bind_congr fun x hx => ?_).trans a.bind_var_eq_self
  rw [h x hx]

/-- An injective renaming can be taken back. -/
theorem unifiable_relabel_iff {p : Atom ν} {f : String → String} (hf : Set.InjOn f {x | x ∈ p.vars})
    (a : Atom ν) : (p.relabel f).Unifiable a ↔ p.Unifiable a := by
  constructor
  · rintro ⟨s, g, h⟩
    exact ⟨fun x => s (f x), g, by rw [← h, bind_relabel]⟩
  · rintro ⟨s, g, h⟩
    refine ⟨fun z => s (Function.invFunOn f {x | x ∈ p.vars} z), g, ?_⟩
    rw [bind_relabel, ← h]
    apply bind_congr
    intro x hx
    rw [hf.leftInvOn_invFunOn hx]

/-- A number stands behind a sign, so names without the sign are never those of renamed variables. -/
theorem numbered_notMem_vars {p : Atom ν} (hp : ∀ y ∈ p.vars, '#' ∉ y.toList) (x : String) (n : Nat) :
    numbered x n ∉ p.vars := by
  intro h
  apply hp _ h
  simp [toList_numbered]

end Atom

/-- What a match says about the space: the stored atom and the score of its truth. -/
def Match.found (m : Match ν) : Atom ν × ν := (m.atom, m.score)

namespace Space

variable [Scalar ν] {D : Set (Atom ν)} {s : Space ν} {p : Atom ν} {f : String → String}

/-! ## Candidates -/

omit [Scalar ν] in
theorem fits_relabel (p : Atom ν) (f : String → String) (a : Atom ν) : fits (p.relabel f) a = fits p a := by
  cases p with
  | expr l => simp [fits, Atom.relabel, Atom.children?]
  | _ => rfl

/-- The index looks up a head, so it is enough that the names there do not change. -/
theorem candidates_relabel (s : Space ν)
    (hhead : ∀ head, p.head? = some head → head.isVar = true ∨ ∀ x ∈ head.vars, f x = x) :
    s.candidates (p.relabel f) = s.candidates p := by
  match p with
  | .expr [] => rfl
  | .expr (head :: l) =>
    rcases hhead head rfl with hvar | hfixed
    · cases head with
      | var x => rfl
      | _ => cases hvar
    · have hsame : head.bind (fun x => .var (f x)) = head := Atom.relabel_eq_self hfixed
      rw [Atom.relabel, Atom.bind_expr, List.map_cons, hsame]
      cases head <;> rfl
  | .var _ | .symbol _ | .int _ | .float _ | .str _ | .list _ | .function _ => rfl

/-! ## Matches -/

theorem Clear.examine_relabel (h : Clear D s p) (h' : Clear D s (p.relabel f))
    (hf : Set.InjOn f {x | x ∈ p.vars}) (key : String) :
    (s.examine (p.relabel f) key).1.map Match.found = (s.examine p key).1.map Match.found ∧
      (s.examine (p.relabel f) key).2 = (s.examine p key).2 := by
  cases hslot : s.slots.get? key with
  | none =>
    unfold examine
    rw [hslot]
    exact ⟨rfl, rfl⟩
  | some slot =>
    have hatom : s.atom? key = some slot.atom := by rw [atom?, hslot]; rfl
    have hunify : (unify (p.relabel f) (s.refresh slot.atom).1 ∅).isSome =
        (unify p (s.refresh slot.atom).1 ∅).isSome := by
      rw [Bool.eq_iff_iff, h.unify_refresh hatom, h'.unify_refresh hatom, Atom.unifiable_relabel_iff hf]
    unfold examine
    rw [hslot]
    simp only [fits_relabel]
    split
    · exact ⟨rfl, rfl⟩
    · cases hu : unify p (s.refresh slot.atom).1 ∅ <;>
        cases hu' : unify (p.relabel f) (s.refresh slot.atom).1 ∅ <;>
        rw [hu, hu'] at hunify
      · exact ⟨rfl, rfl⟩
      · cases hunify
      · cases hunify
      · exact ⟨rfl, rfl⟩

theorem Clear.examineAll_relabel (h : Clear D s p) (h' : Clear D s (p.relabel f))
    (hf : Set.InjOn f {x | x ∈ p.vars}) (keys : List String) :
    (s.examineAll (p.relabel f) keys).1.map Match.found = (s.examineAll p keys).1.map Match.found ∧
      (s.examineAll (p.relabel f) keys).2 = (s.examineAll p keys).2 := by
  induction keys generalizing s with
  | nil => exact ⟨rfl, rfl⟩
  | cons key keys ih =>
    obtain ⟨hfound, hspace⟩ := h.examine_relabel h' hf key
    have hread := s.read_examine p key
    obtain ⟨hrest, hlast⟩ := ih (h.read hread) (h'.read hread)
    constructor
    · rw [examineAll_cons, examineAll_cons, List.map_append, List.map_append, hspace, hrest]
      congr 1
      rw [← Option.toList_map, ← Option.toList_map, hfound]
    · show ((s.examine (p.relabel f) key).2.examineAll (p.relabel f) keys).2 = _
      rw [hspace, hlast]
      rfl

/-- A query finds the same under other names, in the same order, and changes the space in the same
way. -/
theorem query_relabel (h : Clear D s p) (h' : Clear D s (p.relabel f)) (hf : Set.InjOn f {x | x ∈ p.vars})
    (hhead : ∀ head, p.head? = some head → head.isVar = true ∨ ∀ x ∈ head.vars, f x = x) :
    (s.query (p.relabel f)).1.map Match.found = (s.query p).1.map Match.found ∧
      (s.query (p.relabel f)).2 = (s.query p).2 := by
  obtain ⟨hfound, hspace⟩ := h.examineAll_relabel h' hf ((s.candidates p).take s.config.maxCandidates)
  have hsort (l : List (Match ν)) :
      (l.mergeSort fun m n => Scalar.rankLE n.score m.score).map Match.found =
        (l.map Match.found).mergeSort fun m n => Scalar.rankLE n.2 m.2 :=
    List.map_mergeSort fun _ _ _ _ => rfl
  unfold query
  simp only [candidates_relabel s hhead, List.map_take, hsort, hfound, hspace, and_self]

/-- Names without the sign of numbers are no names of renamed variables. -/
theorem clear_of_plain (hs : ∀ slot ∈ s.slots.values, Atom.Plain slot.atom) (hp : Atom.Plain p)
    (hnames : ∀ y ∈ p.vars, '#' ∉ y.toList) : Clear {a | Atom.Plain a} s p where
  faithful := Atom.faithful_plain
  renamed _ n h := h.var_numbered n
  pattern := hp
  stored key a ha := by
    obtain ⟨slot, hslot, rfl⟩ := Option.map_eq_some_iff.1 ha
    exact hs slot (Table.mem_values_of_get? hslot)
  apart _ _ _ x _ n _ := Atom.numbered_notMem_vars hnames x n

/-- A space that holds `(f b $x)`. -/
def templated : Space (Exact fun _ => 1) :=
  ((empty default).add (.expr [.symbol "f", .symbol "b", .var "x"])).2

theorem plain_templated : ∀ slot ∈ templated.slots.values, Atom.Plain slot.atom := by
  decide +kernel

/-- The pattern `(f $y a)`, with any name for its variable. -/
def half (y : String) : Atom (Exact fun _ => 1) :=
  .expr [.symbol "f", .var y, .symbol "a"]

theorem relabel_half (y z : String) : (half y).relabel (fun _ => z) = half z := by
  simp [half, Atom.relabel]

theorem injOn_half (y : String) (f : String → String) : Set.InjOn f {x | x ∈ (half y).vars} := by
  have hvars : (half y).vars = [y] := rfl
  simp [hvars]

/-- With the name of the stored variable the pattern finds the same. -/
theorem query_relabel_templated :
    (templated.query ((half "y").relabel fun _ => "x")).1.map Match.found =
        (templated.query (half "y")).1.map Match.found ∧
      (templated.query ((half "y").relabel fun _ => "x")).2 = (templated.query (half "y")).2 := by
  have hclear : Clear {a | Atom.Plain a} templated (half "y") :=
    clear_of_plain plain_templated (by decide +kernel) (by decide +kernel)
  have hclear' : Clear {a | Atom.Plain a} templated ((half "y").relabel fun _ => "x") :=
    relabel_half "y" "x" ▸ clear_of_plain plain_templated (by decide +kernel) (by decide +kernel)
  refine query_relabel hclear hclear' (injOn_half "y" _) ?_
  rintro head ⟨⟩
  exact .inr nofun

/-- With the name that the query gives to the stored variable there is no solution: the variable would
have to be `b` and `a`. -/
theorem unify_half : unify (half "x#0") (.expr [.symbol "f", .symbol "b", .var "x#0"]) ∅ = none := by
  refine (unify_eq_none_iff Atom.faithful_plain (D := {a | Atom.Plain a}) ?_ ?_ Bindings.acyclic_empty
    (Bindings.within_empty _)).2 ?_
  · show Atom.Plain _
    decide +kernel
  · show Atom.Plain _
    decide +kernel
  · rintro ⟨s, hs, -⟩
    simp only [half, Atom.bind_expr, List.map_cons, List.map_nil, Atom.bind_symbol, Atom.bind_var,
      Atom.expr.injEq, List.cons.injEq, true_and, and_true] at hs
    have hboth := hs.1.symm.trans hs.2.symm
    simp at hboth

theorem length_candidates_half (y : String) : (templated.candidates (half y)).length ≤ 1 := by
  rfl

/-- A pattern with one candidate meets no limit. -/
theorem mem_query_half_iff (y : String) (m : Match (Exact fun _ => 1)) :
    m ∈ (templated.query (half y)).1 ↔ m ∈ (templated.examineAll (half y) ["(f b $x)"]).1 := by
  have hcandidates := length_candidates_half y
  have hresults := templated.length_examineAll_le (half y) (templated.candidates (half y))
  refine mem_query_iff (hcandidates.trans ?_) ((hresults.trans hcandidates).trans ?_) m
  · decide
  · decide

/-- The stored expression is found under one name of the variable of the pattern, and not under another
one. -/
theorem query_captures_name : ¬ ∀ (s : Space (Exact fun _ => 1)) (p : Atom (Exact fun _ => 1))
    (f : String → String), s.Reachable → Set.InjOn f {x | x ∈ p.vars} →
      ∀ a, (∃ m ∈ (s.query (p.relabel f)).1, m.atom = a) ↔ ∃ m ∈ (s.query p).1, m.atom = a := by
  intro h
  have hclear : Clear {a | Atom.Plain a} templated (half "y") :=
    clear_of_plain plain_templated (by decide +kernel) (by decide +kernel)
  have hfact : templated.fact? "(f b $x)" = some (.expr [.symbol "f", .symbol "b", .var "x"], .unknown) := by
    rfl
  have hrefresh : (templated.refresh (.expr [.symbol "f", .symbol "b", .var "x"])).1 =
      .expr [.symbol "f", .symbol "b", .var "x#0"] := by rfl
  have hnone : (templated.examine (half "x#0") "(f b $x)").1 = none := by
    rw [examine_eq hfact, hrefresh, unify_half, Option.map_none, ite_self]
  have hiff := h templated (half "y") (fun _ => "x#0") ⟨default, .single (.add _ _)⟩ (injOn_half "y" _)
    (.expr [.symbol "f", .symbol "b", .var "x"])
  simp only [relabel_half, mem_query_half_iff, hclear.examineAll_iff] at hiff
  obtain ⟨m, hm, -⟩ := hiff.2 ⟨_, List.mem_singleton_self _, .unknown, hfact, by decide +kernel, by rfl,
    fun _ => .symbol "b", fun _ => .symbol "a", by rfl⟩
  rw [examineAll_cons, hnone] at hm
  cases hm

end Space

end Atomspace
