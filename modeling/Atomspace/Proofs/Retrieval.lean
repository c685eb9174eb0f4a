import Atomspace.Proofs.MostGeneral
import Atomspace.Proofs.Reachable
import Atomspace.Proofs.Exact
/-!
# What a query finds

A scan of the whole space finds every stored expression that unifies with a pattern. A query that
no limit cuts short finds of these exactly what the index offers (`Clear.query_iff`), so it
loses an answer just when one is filed under a head of another key. That takes two compound heads
that become equal only under a substitution (`heads_of_lost`).
-/

namespace Atomspace

variable {ν : Type}

/-! ## Renaming apart -/

theorem Atom.bind_rename (a : Atom ν) (n : Nat) (s : String → Atom ν) :
    (a.rename n).bind s = a.bind fun x => s (numbered x n) :=
  a.bind_bind _ s

/-- Two atoms with variables of their own can be made equal. -/
def Atom.Unifiable (p a : Atom ν) : Prop := ∃ f g : String → Atom ν, p.bind f = a.bind g

/-- Renaming the one atom apart from the other makes their variables their own. -/
theorem Atom.unifiable_iff_rename {p a : Atom ν} {n : Nat}
    (hapart : ∀ x ∈ a.vars, numbered x n ∉ p.vars) :
    p.Unifiable a ↔ ∃ s : String → Atom ν, p.bind s = (a.rename n).bind s := by
  constructor
  · rintro ⟨f, g, h⟩
    classical
    -- one assignment for both: a renamed variable as `g` has it, any other one as `f` has it
    let s (z : String) : Atom ν :=
      if hz : ∃ x ∈ a.vars, z = numbered x n then g hz.choose else f z
    have hf : ∀ z ∈ p.vars, s z = f z := fun z hz => dif_neg (by
      rintro ⟨x, hx, rfl⟩
      exact hapart x hx hz)
    have hg : ∀ x ∈ a.vars, s (numbered x n) = g x := by
      intro x hx
      have hz : ∃ y ∈ a.vars, numbered x n = numbered y n := ⟨x, hx, rfl⟩
      rw [show s _ = g hz.choose from dif_pos hz, ← (numbered_eq_iff.1 hz.choose_spec.2).1]
    refine ⟨s, ?_⟩
    rw [p.bind_congr hf, a.bind_rename, a.bind_congr hg, h]
  · rintro ⟨s, h⟩
    exact ⟨s, _, h.trans (a.bind_rename n s)⟩

theorem Atom.unifiable_iff_of_ground {p a : Atom ν} (ha : a.vars = []) :
    p.Unifiable a ↔ ∃ s : String → Atom ν, p.bind s = a.bind s := by
  simp only [Atom.Unifiable, Atom.bind_of_ground ha, exists_const]

namespace Space

variable [Scalar ν]

/-! ## Scans -/

/-- A stored expression of enough confidence that unifies with the pattern. -/
def Scanned (s : Space ν) (p a : Atom ν) : Prop :=
  ∃ key truth, s.fact? key = some (a, truth) ∧ a.kind = .expr ∧
    Scalar.lt truth.confidence s.config.minConfidence = false ∧ p.Unifiable a

/-- The atom is stored under the key, and a pattern that the key is a candidate for finds it. -/
def Answers (s : Space ν) (p : Atom ν) (key : String) (a : Atom ν) : Prop :=
  ∃ truth, s.fact? key = some (a, truth) ∧
    Scalar.lt truth.confidence s.config.minConfidence = false ∧ fits p a = true ∧ p.Unifiable a

theorem Read.answers_iff {s t : Space ν} (h : Read s t) (p : Atom ν) (key : String) (a : Atom ν) :
    t.Answers p key a ↔ s.Answers p key a := by
  rw [Answers, h.fact?, h.config]
  rfl

/-- The atoms of a set that the pattern and the space keep to. Keys tell them apart, and no variable
of the pattern looks like one that a query would rename a stored variable to. -/
structure Clear (D : Set (Atom ν)) (s : Space ν) (p : Atom ν) : Prop where
  faithful : Atom.Faithful D
  renamed : ∀ x (n : Nat), .var x ∈ D → .var (Atom.numbered x n) ∈ D
  pattern : p ∈ D
  stored : ∀ key a, s.atom? key = some a → a ∈ D
  apart : ∀ key a, s.atom? key = some a → ∀ x ∈ a.vars, ∀ n, s.renamings ≤ n →
    Atom.numbered x n ∉ p.vars

section
variable {D : Set (Atom ν)} {s t : Space ν} {p : Atom ν}

theorem Clear.read (h : Clear D s p) (hr : Read s t) : Clear D t p := by
  refine ⟨h.faithful, h.renamed, h.pattern, ?_, ?_⟩
  · intro key a ha
    exact h.stored key a (hr.revalued.atom? key ▸ ha)
  · intro key a ha x hx n hn
    exact h.apart key a (hr.revalued.atom? key ▸ ha) x hx n (Nat.le_trans hr.renamings hn)

theorem Clear.unify_refresh (h : Clear D s p) {key : String} {a : Atom ν} (ha : s.atom? key = some a) :
    (unify p (s.refresh a).1 ∅).isSome ↔ p.Unifiable a := by
  have haD := h.stored key a ha
  have hunify {c : Atom ν} (hc : c ∈ D) := isSome_unify_iff h.faithful h.pattern hc
  unfold refresh
  cases hvars : a.hasVars with
  | true =>
    rw [if_pos rfl, hunify, Atom.unifiable_iff_rename fun x hx => h.apart key a ha x hx _ (Nat.le_refl _)]
    exact h.faithful.bind haD fun x hx => h.renamed x _ (h.faithful.var_mem haD hx)
  | false =>
    rw [if_neg (by simp), hunify haD, Atom.unifiable_iff_of_ground ((a.hasVars_eq_false_iff).1 hvars)]

theorem Clear.examine_iff (h : Clear D s p) (key : String) (a : Atom ν) :
    (∃ m ∈ (s.examine p key).1, m.atom = a) ↔ s.Answers p key a := by
  rw [Answers]
  cases hfact : s.fact? key with
  | none => simp [examine_of_free hfact]
  | some fact =>
    obtain ⟨c, truth⟩ := fact
    have hunify := h.unify_refresh (atom?_of_fact? hfact)
    rw [examine_eq hfact]
    split
    · rename_i hskip
      simp only [Option.mem_def, reduceCtorEq, false_and, exists_false, Option.some.injEq, Prod.mk.injEq,
        false_iff]
      rintro ⟨_, ⟨rfl, rfl⟩, hconf, hfits, -⟩
      simp [hconf, hfits] at hskip
    · rename_i hkeep
      rw [Bool.or_eq_true, Bool.not_eq_true', not_or, Bool.not_eq_true, Bool.not_eq_false] at hkeep
      constructor
      · rintro ⟨m, hm, rfl⟩
        obtain ⟨b, hb, rfl⟩ := Option.map_eq_some_iff.1 hm
        exact ⟨truth, rfl, hkeep.1, hkeep.2, hunify.1 (by rw [hb]; rfl)⟩
      · rintro ⟨_, e, -, -, hu⟩
        cases e
        obtain ⟨b, hb⟩ := Option.isSome_iff_exists.1 (hunify.2 hu)
        exact ⟨_, Option.map_eq_some_iff.2 ⟨b, hb, rfl⟩, rfl⟩

/-- Examining keys in turn finds what answers the pattern under each of them. -/
theorem Clear.examineAll_iff (h : Clear D s p) (keys : List String) (a : Atom ν) :
    (∃ m ∈ (s.examineAll p keys).1, m.atom = a) ↔ ∃ key ∈ keys, s.Answers p key a := by
  induction keys generalizing s with
  | nil => simp [examineAll]
  | cons key keys ih =>
    have hread := s.read_examine p key
    simp only [examineAll_cons, List.mem_append, or_and_right, exists_or, Option.mem_toList, Option.mem_def,
      List.exists_mem_cons_iff, ← h.examine_iff key, ih (h.read hread), hread.answers_iff]

omit [Scalar ν] in
theorem fits_of_unifiable {l : List (Atom ν)} {a : Atom ν} (ha : a.kind = .expr)
    (h : (Atom.expr l).Unifiable a) : fits (.expr l) a = true := by
  obtain ⟨f, g, h⟩ := h
  cases a with
  | expr m =>
    rw [Atom.bind_expr, Atom.bind_expr, Atom.expr.injEq] at h
    have := congrArg List.length h
    simp only [List.length_map] at this
    simp [fits, Atom.children?, this]
  | _ => cases ha

omit [Scalar ν] in
theorem kind_of_fits {l : List (Atom ν)} {a : Atom ν} (h : fits (.expr l) a = true) : a.kind = .expr := by
  cases a with
  | expr m => rfl
  | _ => cases h

/-- A query that no limit cuts short finds what a scan finds, as far as the index offers it. -/
theorem Clear.query_iff {l : List (Atom ν)} (h : Clear D s (.expr l)) (hs : s.Filed)
    (hcandidates : (s.candidates (.expr l)).length ≤ s.config.maxCandidates)
    (hresults : (s.examineAll (.expr l) (s.candidates (.expr l))).1.length ≤ s.config.maxResults)
    (a : Atom ν) : (∃ m ∈ (s.query (.expr l)).1, m.atom = a) ↔
      s.Scanned (.expr l) a ∧ InReach (.expr l) a := by
  simp only [mem_query_iff hcandidates hresults, h.examineAll_iff]
  constructor
  · rintro ⟨key, hkey, truth, hf, hconf, hfits, hu⟩
    exact ⟨⟨key, truth, hf, kind_of_fits hfits, hconf, hu⟩, (mem_candidates_iff hs l (atom?_of_fact? hf)).1 hkey⟩
  · rintro ⟨⟨key, truth, hf, hkind, hconf, hu⟩, hreach⟩
    exact ⟨key, (mem_candidates_iff hs l (atom?_of_fact? hf)).2 hreach, truth, hf, hconf,
      fits_of_unifiable hkind hu, hu⟩

end

/-! ## What the index loses -/

/-- An answer that the index does not offer has a compound head, as the pattern has, and one of the
two heads has a variable inside. -/
theorem heads_of_lost {l m : List (Atom ν)} (hu : (Atom.expr l).Unifiable (.expr m))
    (hlost : ¬ InReach (.expr l) (.expr m)) : ∃ as bs, l.head? = some (.expr as) ∧
      m.head? = some (.expr bs) ∧ ((Atom.expr as).hasVars = true ∨ (Atom.expr bs).hasVars = true) := by
  cases l with
  | nil => exact absurd (.inl rfl) hlost
  | cons a l =>
    cases m with
    | nil => exact absurd (.inr (.inr rfl)) hlost
    | cons b m =>
      have hne : a ≠ b := by
        rintro rfl
        exact hlost (.inr (.inl (by rw [headKey?_cons, headKey?_cons])))
      obtain ⟨f, g, h⟩ := hu
      rw [Atom.bind_expr, Atom.bind_expr, Atom.expr.injEq, List.map_cons, List.map_cons] at h
      have hab := (List.cons.inj h).1
      cases a with
      | var x => exact absurd (.inl rfl) hlost
      | expr as =>
        cases b with
        | var y => exact absurd (.inr (.inr rfl)) hlost
        | expr bs =>
          refine ⟨as, bs, rfl, rfl, ?_⟩
          -- without variables both heads are what they become, and that is equal
          by_contra hvars
          rw [not_or, Bool.not_eq_true, Bool.not_eq_true, Atom.hasVars_eq_false_iff,
            Atom.hasVars_eq_false_iff] at hvars
          rw [Atom.bind_of_ground hvars.1, Atom.bind_of_ground hvars.2] at hab
          exact hne hab
        | _ => cases hab
      | _ =>
        cases b with
        | var y => exact absurd (.inr (.inr rfl)) hlost
        | expr bs => cases hab
        | _ => exact absurd hab hne

/-- A query that no limit cuts short finds the stored expressions that unify with its pattern and that
the index offers. So it finds what a scan finds just when the index offers all of that, and what it
loses has a compound head, as the pattern has, with a variable in one of the two. -/
theorem query_eq_scan_iff {D : Set (Atom ν)} {s : Space ν} {l : List (Atom ν)} (hs : s.Reachable)
    (h : Clear D s (.expr l)) (hcandidates : (s.candidates (.expr l)).length ≤ s.config.maxCandidates)
    (hresults : (s.examineAll (.expr l) (s.candidates (.expr l))).1.length ≤ s.config.maxResults) :
    (∀ a, (∃ m ∈ (s.query (.expr l)).1, m.atom = a) ↔ s.Scanned (.expr l) a ∧ InReach (.expr l) a) ∧
    ((∀ a, (∃ m ∈ (s.query (.expr l)).1, m.atom = a) ↔ s.Scanned (.expr l) a) ↔
      ∀ a, s.Scanned (.expr l) a → InReach (.expr l) a) ∧
    ∀ m, s.Scanned (.expr l) (.expr m) → ¬ InReach (.expr l) (.expr m) → ∃ as bs,
      l.head? = some (.expr as) ∧ m.head? = some (.expr bs) ∧
        ((Atom.expr as).hasVars = true ∨ (Atom.expr bs).hasVars = true) := by
  have hquery := h.query_iff hs.filed hcandidates hresults
  refine ⟨hquery, ⟨?_, ?_⟩, ?_⟩
  · intro hall a ha
    exact ((hquery a).1 ((hall a).2 ha)).2
  · intro hreach a
    rw [hquery a, and_iff_left_of_imp (hreach a)]
  · intro m hm hlost
    obtain ⟨_, _, -, -, -, hu⟩ := hm
    exact heads_of_lost hu hlost

theorem length_examineAll_le (s : Space ν) (p : Atom ν) (keys : List String) :
    (s.examineAll p keys).1.length ≤ keys.length := by
  induction keys generalizing s with
  | nil => exact Nat.le_refl _
  | cons key keys ih =>
    have hfound : (s.examine p key).1.toList.length ≤ 1 := by
      cases (s.examine p key).1 <;> simp
    have := ih (s.examine p key).2
    rw [examineAll_cons, List.length_append, List.length_cons]
    omega

/-- A space that holds `((f b) a)`. -/
def nested : Space (Exact fun _ => 1) :=
  ((empty default).add (.expr [.expr [.symbol "f", .symbol "b"], .symbol "a"])).2

theorem nested_reachable : nested.Reachable :=
  ⟨default, .single (.add _ _)⟩

/-- `((f $x) a)` unifies with `((f b) a)`, but their heads have different keys. -/
theorem query_loses_compound_head :
    ¬ ∀ a, (∃ m ∈ (nested.query (.expr [.expr [.symbol "f", .var "x"], .symbol "a"])).1, m.atom = a) ↔
      nested.Scanned (.expr [.expr [.symbol "f", .var "x"], .symbol "a"]) a := by
  intro h
  obtain ⟨m, hm, -⟩ := (h (.expr [.expr [.symbol "f", .symbol "b"], .symbol "a"])).2
    ⟨"((f b) a)", .unknown, by rfl, rfl, by decide +kernel, fun _ => .symbol "b", .var, by rfl⟩
  have hnone : nested.candidates (.expr [.expr [.symbol "f", .var "x"], .symbol "a"]) = [] := by rfl
  simp [query, hnone, examineAll] at hm

theorem eq_of_mem_nested {key : String} {a : Atom (Exact fun _ => 1)} (h : nested.atom? key = some a) :
    (∃ name ∈ protectedNames, a = .symbol name) ∨
      a = .expr [.expr [.symbol "f", .symbol "b"], .symbol "a"] := by
  have hatoms : nested.slots.values.map Slot.atom = protectedNames.map .symbol ++
    [.expr [.expr [.symbol "f", .symbol "b"], .symbol "a"]] := by rfl
  obtain ⟨slot, hslot, rfl⟩ := Option.map_eq_some_iff.1 h
  have hmem := List.mem_map_of_mem (f := Slot.atom) (Table.mem_values_of_get? hslot)
  rw [hatoms] at hmem
  simpa [eq_comm] using hmem

theorem nested_clear : Clear {a | Atom.Plain a} nested (.expr [.var "h", .symbol "a"]) where
  faithful := Atom.faithful_plain
  renamed _ n h := h.var_numbered n
  pattern := .expr (List.forall_mem_cons.2 ⟨.var (by decide), List.forall_mem_singleton.2
    (.symbol (by decide))⟩)
  stored key a ha := by
    have hnames : protectedNames.all Atom.isName = true := by decide
    rcases eq_of_mem_nested ha with ⟨name, hname, rfl⟩ | rfl
    · exact .symbol (List.all_eq_true.1 hnames name hname)
    · refine .expr (List.forall_mem_cons.2 ⟨.expr (List.forall_mem_cons.2 ⟨?_, ?_⟩), ?_⟩)
      · exact .symbol (by decide)
      · exact List.forall_mem_singleton.2 (.symbol (by decide))
      · exact List.forall_mem_singleton.2 (.symbol (by decide))
  apart key a ha x hx := by
    rcases eq_of_mem_nested ha with ⟨name, -, rfl⟩ | rfl <;> cases hx

/-- With a variable for its head the pattern finds the stored expression. -/
theorem query_eq_scan_iff_nested : ∃ m ∈ (nested.query (.expr [.var "h", .symbol "a"])).1,
    m.atom = .expr [.expr [.symbol "f", .symbol "b"], .symbol "a"] := by
  have hcandidates : (nested.candidates (.expr [.var "h", .symbol "a"])).length ≤ 19 := by rfl
  have hresults := nested.length_examineAll_le (.expr [.var "h", .symbol "a"])
    (nested.candidates (.expr [.var "h", .symbol "a"]))
  refine ((query_eq_scan_iff nested_reachable nested_clear (Nat.le_trans hcandidates ?_)
    (Nat.le_trans hresults (Nat.le_trans hcandidates ?_))).1 _).2 ⟨?_, .inl rfl⟩
  · decide
  · decide
  · exact ⟨"((f b) a)", .unknown, by rfl, rfl, by decide +kernel,
      fun _ => .expr [.symbol "f", .symbol "b"], .var, by rfl⟩

end Space

end Atomspace
