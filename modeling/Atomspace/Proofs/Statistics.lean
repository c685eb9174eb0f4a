import Atomspace.Proofs.Declarations
import Atomspace.Proofs.Protection
import Atomspace.Proofs.Ranking
import Atomspace.Proofs.Rules
import Atomspace.Space.Stats
/-!
# What the statistics count

The table lists every stored atom once, so a count over it is the number of stored atoms of some sort
(`Space.countP_eq_census`). Rules and declarations of types are counted by their head alone. Evaluation asks
for more: what it applies has three children (`Evaluator.three_of_applies`), and what has three it can apply
(`Evaluator.exists_applies_of_vars`, `Evaluator.exists_applies_of_ground`). So the counts tell how many rules
and declarations there are as long as nothing of another length is stored under these heads
(`Space.surveyed_of_uses`).
-/

namespace Atomspace

variable {ν : Type}

namespace Atom

/-- The atom is an expression with a symbol of this name for its head. -/
def Marked (mark : String) (a : Atom ν) : Prop := a.head? = some (.symbol mark)

/-- The atom is such an expression with two more children. -/
def IsTriple (mark : String) (a : Atom ν) : Prop := ∃ left right, a = .expr [.symbol mark, left, right]

theorem IsTriple.marked {mark : String} {a : Atom ν} (h : a.IsTriple mark) : a.Marked mark := by
  obtain ⟨left, right, rfl⟩ := h
  rfl

theorem symbol?_eq_some {a : Atom ν} {name : String} : a.symbol? = some name ↔ a = .symbol name := by
  cases a <;> simp [symbol?]

end Atom

namespace Space

variable {s : Space ν}

/-! ## Counts -/

/-- The number of stored atoms with a property. -/
noncomputable def census (s : Space ν) (P : Atom ν → Prop) : Nat :=
  {a | (∃ key, s.atom? key = some a) ∧ P a}.ncard

/-- The stored atoms, in the order of the table. -/
def atoms (s : Space ν) : List (Atom ν) :=
  s.slots.values.map Slot.atom

theorem mem_atoms_iff (hd : s.Distinct) {a : Atom ν} : a ∈ s.atoms ↔ ∃ key, s.atom? key = some a := by
  simp only [hd.atom?_eq_some_iff, atoms, Table.values, List.map_map, List.mem_map, Function.comp_apply]
  exact ⟨fun ⟨e, he, ha⟩ => ⟨e.1, e, he, rfl, ha⟩, fun ⟨_, e, he, _, ha⟩ => ⟨e, he, ha⟩⟩

variable [Scalar ν]

/-- The keys tell the stored atoms apart. -/
theorem nodup_atoms (hs : s.Filed) (hd : s.Distinct) : s.atoms.Nodup := by
  have hkeys : s.atoms.map Atom.key = s.slots.keys := by
    rw [atoms, Table.values, Table.keys, List.map_map, List.map_map]
    exact List.map_congr_left fun e he =>
      hs.keyed e.1 e.2.atom ((hd.atom?_eq_some_iff _ _).2 ⟨e, he, rfl, rfl⟩)
  exact (hkeys ▸ hd.slots).of_map

/-- A count over the table is the number of stored atoms with the property. -/
theorem countP_eq_census (hs : s.Filed) (hd : s.Distinct) (p : Atom ν → Bool) :
    (s.slots.values.countP fun slot => p slot.atom) = s.census fun a => p a = true := by
  classical
  have hset : {a | (∃ key, s.atom? key = some a) ∧ p a = true} = ↑(s.atoms.filter p).toFinset := by
    ext a
    simp [mem_atoms_iff hd]
  rw [census, hset, Set.ncard_coe_finset, List.toFinset_card_of_nodup ((nodup_atoms hs hd).filter p),
    ← List.countP_eq_length_filter, atoms, List.countP_map]
  rfl

omit [Scalar ν] in
theorem finite_stored (hd : s.Distinct) (P : Atom ν → Prop) :
    {a | (∃ key, s.atom? key = some a) ∧ P a}.Finite := by
  refine (List.finite_toSet s.atoms).subset fun a ha => ?_
  exact (mem_atoms_iff hd).2 ha.1

omit [Scalar ν] in
/-- What is counted with a property has another one or has it not. -/
theorem census_eq_add (hd : s.Distinct) (P Q : Atom ν → Prop) :
    s.census P = s.census (fun a => P a ∧ Q a) + s.census fun a => P a ∧ ¬ Q a := by
  have hunion : {a | (∃ key, s.atom? key = some a) ∧ P a} =
      {a | (∃ key, s.atom? key = some a) ∧ P a ∧ Q a} ∪ {a | (∃ key, s.atom? key = some a) ∧ P a ∧ ¬ Q a} := by
    refine Set.ext fun a => ?_
    show _ ∧ P a ↔ (_ ∧ P a ∧ Q a) ∨ (_ ∧ P a ∧ ¬ Q a)
    tauto
  rw [census, hunion, Set.ncard_union_eq ?_ (finite_stored hd _) (finite_stored hd _)]
  · rfl
  · rw [Set.disjoint_left]
    exact fun a h h' => h'.2.2 h.2.2

omit [Scalar ν] in
theorem census_eq_zero_iff (hd : s.Distinct) {P : Atom ν → Prop} :
    s.census P = 0 ↔ ∀ key a, s.atom? key = some a → ¬ P a := by
  rw [census, Set.ncard_eq_zero (finite_stored hd P), Set.eq_empty_iff_forall_notMem]
  exact ⟨fun h key a ha hP => h a ⟨⟨key, ha⟩, hP⟩, fun h a ⟨⟨key, ha⟩, hP⟩ => h key a ha hP⟩

/-! ## Kinds and protected symbols -/

/-- Every stored atom is of one kind. -/
theorem total_eq_sum (s : Space ν) : s.stats.total =
    s.stats.ofKind .symbol + s.stats.ofKind .var + s.stats.ofKind .expr + s.stats.ofKind .grounded := by
  have hsum (l : List (Slot ν)) : l.length = l.countP (fun slot => slot.atom.kind = .symbol) +
      l.countP (fun slot => slot.atom.kind = .var) + l.countP (fun slot => slot.atom.kind = .expr) +
      l.countP (fun slot => slot.atom.kind = .grounded) := by
    induction l with
    | nil => rfl
    | cons slot l ih =>
      simp only [List.length_cons, List.countP_cons, ih]
      cases slot.atom.kind <;> simp <;> omega
  have hsize : s.stats.total = s.slots.values.length := (List.length_map _).symm
  exact hsize.trans (hsum _)

/-- No other atom passes for a protected symbol, so there are as many as there may be just if all are stored. -/
theorem census_isProtected_eq_iff (hs : s.Filed) :
    s.census (fun a => isProtected a = true) = protectedNames.length ↔ s.Protected := by
  classical
  have hnodup : (protectedNames.map Atom.symbol : List (Atom ν)).Nodup :=
    (List.nodup_map_iff fun _ _ => Atom.symbol.inj).2 (by decide)
  have hlength : {a : Atom ν | a ∈ protectedNames.map Atom.symbol}.ncard = protectedNames.length := by
    rw [← List.coe_toFinset, Set.ncard_coe_finset, List.toFinset_card_of_nodup hnodup, List.length_map]
  have hsubset : {a : Atom ν | (∃ key, s.atom? key = some a) ∧ isProtected a = true} ⊆
      {a | a ∈ protectedNames.map Atom.symbol} := by
    rintro a ⟨-, ha⟩
    cases a with
    | symbol name =>
      simp only [isProtected, Bool.and_eq_true, List.contains_iff_mem] at ha
      exact List.mem_map_of_mem ha.2
    | _ => simp [isProtected, Atom.kind] at ha
  rw [census, ← hlength]
  constructor
  · intro hcount name hname
    have hall := Set.eq_of_subset_of_ncard_le hsubset hcount.ge (List.finite_toSet _)
    obtain ⟨⟨key, hkey⟩, -⟩ : .symbol name ∈ {a : Atom ν | (∃ key, s.atom? key = some a) ∧ isProtected a = true} :=
      hall ▸ List.mem_map_of_mem hname
    rwa [← hs.keyed key _ hkey] at hkey
  · intro hprotected
    refine congrArg Set.ncard (hsubset.antisymm ?_)
    rintro _ ha
    obtain ⟨name, hname, rfl⟩ := List.mem_map.1 ha
    exact ⟨⟨name, hprotected name hname⟩, by simp [isProtected, Atom.kind, Atom.key, hname]⟩

/-! ## Heads -/

theorem countHead_eq_census (hs : s.Filed) (hd : s.Distinct) (mark : String) :
    s.countHead mark = s.census (Atom.Marked mark) := by
  have hmarked : (fun a : Atom ν => (a.head?.bind Atom.symbol? == some mark) = true) = Atom.Marked mark := by
    funext a
    rw [beq_iff_eq, Option.bind_eq_some_iff, Atom.Marked]
    simp only [Atom.symbol?_eq_some, exists_eq_right]
  rw [countHead, countP_eq_census hs hd fun a => a.head?.bind Atom.symbol? == some mark, hmarked]

/-- Under a head, the triples are counted and all that has another length. -/
theorem countHead_eq_add (hs : s.Filed) (hd : s.Distinct) (mark : String) : s.countHead mark =
    s.census (Atom.IsTriple mark) + s.census fun a => a.Marked mark ∧ ¬ a.IsTriple mark := by
  have htriple : (fun a : Atom ν => a.Marked mark ∧ a.IsTriple mark) = Atom.IsTriple mark := by
    funext a
    exact propext ⟨And.right, fun h => ⟨h.marked, h⟩⟩
  rw [countHead_eq_census hs hd, census_eq_add hd _ (Atom.IsTriple mark), htriple]

/-- The count is that of the triples just if all that is stored under the head is a triple. -/
theorem countHead_eq_iff (hs : s.Filed) (hd : s.Distinct) (mark : String) :
    s.countHead mark = s.census (Atom.IsTriple mark) ↔
      ∀ key a, s.atom? key = some a → a.Marked mark → a.IsTriple mark := by
  rw [countHead_eq_add hs hd, Nat.add_eq_left, census_eq_zero_iff hd]
  simp only [not_and, not_not]

end Space

/-! ## What rules apply -/

namespace Unifier

variable [Scalar ν]

/-- Unification with an equation binds nothing, or it makes the head the mark of equations. -/
theorem head_of_unify {p q mark left right : Atom ν} {b : Bindings ν}
    (h : unify (.expr [.symbol "=", p, q]) (.expr [mark, left, right]) ∅ = some b) :
    b = ∅ ∨ mark = .symbol "=" ∨ mark.isVar = true := by
  by_cases hsame : (Atom.expr [.symbol "=", p, q] == .expr [mark, left, right]) = true
  · exact .inl (Option.some.inj (h.symm.trans (unify_of_beq hsame)))
  · have hstart : unify (.expr [.symbol "=", p, q]) (.expr [mark, left, right]) ∅ =
        run ⟨[(.symbol "=", mark), (p, left), (q, right)], ∅, []⟩ :=
      unify_expr (Bool.eq_false_iff.2 hsame) rfl
    rcases run_symbol [] [(p, left), (q, right)] Bindings.nominal_empty "=" mark
      with ⟨c, hc, hholds, -, -⟩ | ⟨-, hnone⟩
    · right
      have hmark := ((hholds _).1 hc.acyclic.holds_subst).2
      cases mark with
      | symbol name => exact .inl hmark
      | var x => exact .inr rfl
      | expr l =>
        rw [Atom.bind_expr] at hmark
        cases hmark
      | _ => cases hmark
    · exact absurd (h.symm.trans (hstart.trans hnone)) nofun

/-- A free variable on the right side of an equation is bound to the right side of one with the same left
side. -/
theorem unify_right {x : String} {left right : Atom ν}
    (hdiffer : (Atom.expr [.symbol "=", left, .var x] == .expr [.symbol "=", left, right]) = false)
    (hx : x ∉ right.vars) :
    unify (.expr [.symbol "=", left, .var x]) (.expr [.symbol "=", left, right]) ∅ =
      some ((∅ : Bindings ν).insert x right) :=
  calc unify _ _ ∅
    _ = run ⟨[(.symbol "=", .symbol "="), (left, left), (.var x, right)], ∅, []⟩ := unify_expr hdiffer rfl
    _ = run ⟨[(left, left), (.var x, right)], ∅, []⟩ := run_cons (step_of_beq (Atom.beq_self _))
    _ = run ⟨[(.var x, right)], ∅, []⟩ := run_cons (step_of_beq (Atom.beq_self _))
    _ = some ((∅ : Bindings ν).insert x right) := unify_var hx

end Unifier

namespace Atom

variable [Scalar ν]

/-- What stands in a list of texts stands in them with blanks in between. -/
theorem mem_intercalate {c d : Char} {texts : List (List Char)} {text : List Char} (htext : text ∈ texts)
    (hc : c ∈ text) : c ∈ List.intercalate [d] texts := by
  induction texts with
  | nil => cases htext
  | cons first rest ih =>
    cases rest with
    | nil =>
      rw [List.mem_singleton.1 htext] at hc
      simpa using hc
    | cons second rest =>
      rw [List.intercalate_cons_cons, List.mem_append, List.mem_append]
      rcases List.mem_cons.1 htext with rfl | htext
      · exact .inl (.inl hc)
      · exact .inr (ih htext)

/-- The names of the variables can be read in the key. -/
theorem mem_key_of_mem_vars {a : Atom ν} {x : String} (hx : x ∈ a.vars) {c : Char} (hc : c ∈ x.toList) :
    c ∈ a.key.toList := by
  induction a using induct with
  | var y =>
    rw [vars_var, List.mem_singleton] at hx
    rw [key_toList_var, ← hx]
    exact List.mem_cons_of_mem _ hc
  | expr l ih =>
    rw [vars_expr] at hx
    obtain ⟨b, hb, hx⟩ := List.mem_flatMap.1 hx
    rw [key_toList_expr]
    exact List.mem_cons_of_mem _ (List.mem_append_left _
      (mem_intercalate (List.mem_map_of_mem hb) (ih b hb hx)))
  | constant b hb =>
    rw [vars_constant hb] at hx
    cases hx

end Atom

namespace Space

variable [Scalar ν] {s : Space ν}

/-- A query that no limit cuts short finds a candidate that unifies with its pattern, by whatever number it is
renamed. -/
theorem exists_mem_query {p a : Atom ν} {key : String} {truth : Truth ν}
    (hcandidates : (s.candidates p).length ≤ s.config.maxCandidates)
    (hresults : (s.candidates p).length ≤ s.config.maxResults) (hkey : key ∈ s.candidates p)
    (hfact : s.fact? key = some (a, truth))
    (htrust : Scalar.lt truth.confidence s.config.minConfidence = false) (hfits : fits p a = true)
    (hunify : ∀ n, ∃ b, unify p (a.rename n) ∅ = some b) :
    ∃ m ∈ (s.query p).1, m.atom = a ∧ ∃ n, unify p (a.rename n) ∅ = some m.bindings := by
  obtain ⟨before, after, hsplit⟩ := List.append_of_mem hkey
  obtain ⟨b, hb⟩ := hunify (s.numberAt p before)
  refine ⟨⟨a, b, truth.score⟩, ?_, rfl, _, hb⟩
  rw [mem_query_iff hcandidates ((s.length_examineAll_le p _).trans hresults), mem_examineAll_iff]
  exact ⟨before, key, after, truth, hsplit, hfact, htrust, hfits, hb, rfl⟩

end Space

namespace Evaluator

variable [Scalar ν] {s : Space ν} {a rule v left right : Atom ν}

/-- In the state of the space, evaluation reduces an atom to another one by a stored atom. -/
inductive Applies (s : Space ν) (a rule v : Atom ν) : Prop
  | ground {m : Match ν} : m ∈ (s.query (.expr [.symbol "=", a, .var "__result"])).1 → m.atom = rule →
      groundResult? m = some v → Applies s a rule v
  | general {m : Match ν} : m ∈ (s.query rulePattern).1 → m.atom = rule → generalResult? a m = some v →
      Applies s a rule v

/-- A match that binds something is of three children under the head `=` or under a variable. -/
theorem three_of_found {t : Space ν} {p q : Atom ν} {m : Match ν}
    (hm : Space.Found s t (.expr [.symbol "=", p, q]) m) (hbound : m.bindings ≠ ∅) :
    s.Trusts m.atom ∧ ∃ mark left right, m.atom = .expr [mark, left, right] ∧
      (mark = .symbol "=" ∨ mark.isVar = true) := by
  refine ⟨hm.trusts, ?_⟩
  obtain ⟨-, -, hfits, -, hunify⟩ := hm
  obtain ⟨mark, left, right, hatom⟩ := exists_three_of_fits hfits
  rw [hatom, Atom.rename_expr] at hunify
  refine ⟨mark, left, right, hatom, ?_⟩
  rcases Unifier.head_of_unify hunify with hempty | hhead
  · exact absurd hempty hbound
  · cases mark with
    | symbol name => exact hhead
    | var x => exact .inr rfl
    | _ => rcases hhead with h | h <;> cases h

/-- Evaluation applies nothing but what has three children under the head `=` or under a variable. -/
theorem three_of_applies (h : Applies s a rule v) : s.Trusts rule ∧
    ∃ mark left right, rule = .expr [mark, left, right] ∧ (mark = .symbol "=" ∨ mark.isVar = true) := by
  cases h with
  | ground hm hrule hv =>
    refine hrule ▸ three_of_found (Space.found_query hm) fun hempty => ?_
    rw [groundResult?, hempty] at hv
    split at hv <;> cases hv
  | general hm hrule hv =>
    refine hrule ▸ three_of_found (Space.found_query hm) fun hempty => ?_
    rw [generalResult?, hempty] at hv
    cases hv

/-! ### Every equation applies -/

theorem rulePattern_beq_eq_false (n : Nat) (hvars : left.hasVars = true) :
    (rulePattern == .expr [.symbol "=", left.rename n, right.rename n]) = false := by
  rw [Bool.eq_false_iff, ne_eq, Atom.beq_iff]
  rintro ⟨-, hkey⟩
  have hrenamed : (left.rename n).vars ≠ [] := by
    rwa [ne_eq, Atom.vars_rename_eq_nil, ← ne_eq, ← Atom.hasVars_iff_ne_nil]
  obtain ⟨y, hy⟩ := List.exists_mem_of_ne_nil _ hrenamed
  obtain ⟨x, -, rfl⟩ := Atom.mem_vars_rename hy
  -- only the key of the renamed rule has the sign of a renaming in it
  have hsign := Atom.mem_key_of_mem_vars
    (Atom.mem_vars_equation.2 (.inl hy) : _ ∈ (Atom.expr [.symbol "=", left.rename n, right.rename n]).vars)
    (Atom.mem_toList_numbered x n)
  have hpattern : (rulePattern : Atom ν).key = "(= $__pattern $__template)" := by rfl
  rw [← hkey, hpattern] at hsign
  exact absurd hsign (by decide)

/-- Only a symbol that is spelled like the variable of the look-up passes for it. -/
theorem resultPattern_beq_eq_false (hright : right ≠ .symbol "$__result") (n : Nat) :
    (Atom.expr [.symbol "=", left, .var "__result"] == .expr [.symbol "=", left, right.rename n]) = false := by
  rw [Bool.eq_false_iff, ne_eq, Atom.beq_iff]
  rintro ⟨-, hkey⟩
  have hlist := congrArg String.toList hkey
  simp only [Atom.key_toList_expr, List.map_cons, List.map_nil, List.intercalate_cons_cons,
    List.intercalate_singleton, List.append_assoc, List.append_cancel_left_eq, List.cons.injEq, true_and,
    List.append_cancel_right_eq, Atom.key_toList_var] at hlist
  cases right with
  | symbol name => exact hright (congrArg Atom.symbol (String.toList_inj.1 hlist.symm))
  | var x =>
    rw [show (Atom.var x : Atom ν).rename n = .var (Atom.numbered x n) from rfl, Atom.key_toList_var,
      List.cons.injEq, String.toList_inj] at hlist
    exact internal_ne_numbered (by decide) x n hlist.2
  | expr l =>
    rw [Atom.rename_expr, Atom.key_toList_expr] at hlist
    cases (List.cons.inj hlist).1
  | _ => simp [Atom.rename, Atom.bind, Atom.key] at hlist

/-- Whatever has variables can be matched with some expression. -/
theorem exists_unify_of_vars {a : Atom ν} (ha : a.hasVars = true) :
    ∃ head args b, unify a (.expr (head :: args)) ∅ = some b := by
  cases a with
  | var x => exact ⟨.symbol "", [], _, Unifier.unify_var (by simp [Atom.vars, Atom.varsAll])⟩
  | expr l =>
    cases l with
    | nil => cases ha
    | cons head args => exact ⟨head, args, ∅, Unifier.unify_of_beq (Atom.beq_self _)⟩
  | _ => cases ha

section
variable (hs : s.Filed) (hcandidates : (s.candidates rulePattern).length ≤ s.config.maxCandidates)
  (hresults : (s.candidates rulePattern).length ≤ s.config.maxResults)
  (hrule : s.Trusts (.expr [.symbol "=", left, right]))
include hs hcandidates hresults hrule

theorem exists_mem_query_equation {p q : Atom ν}
    (hunify : ∀ n, ∃ b, unify (.expr [.symbol "=", p, q]) (.expr [.symbol "=", left.rename n, right.rename n]) ∅ =
      some b) :
    ∃ m ∈ (s.query (.expr [.symbol "=", p, q])).1, m.atom = .expr [.symbol "=", left, right] ∧
      ∃ n, unify (.expr [.symbol "=", p, q]) (.expr [.symbol "=", left.rename n, right.rename n]) ∅ =
        some m.bindings := by
  obtain ⟨key, truth, hfact, htrust⟩ := hrule
  have hkey : key ∈ s.candidates (.expr [.symbol "=", p, q]) :=
    (Space.mem_candidates_iff hs _ (Space.atom?_of_fact? hfact)).2 (.inr (.inl rfl))
  have hrename (n : Nat) : (Atom.expr [.symbol "=", left, right]).rename n =
      .expr [.symbol "=", left.rename n, right.rename n] := Atom.rename_expr _ n
  simp only [← hrename] at hunify ⊢
  exact Space.exists_mem_query hcandidates hresults hkey hfact htrust rfl hunify

/-- An equation with variables on its left side applies to some expression. -/
theorem exists_applies_of_vars (hvars : left.hasVars = true) :
    ∃ head args v, Applies s (.expr (head :: args)) (.expr [.symbol "=", left, right]) v := by
  have hfresh {x : String} (hx : x ∈ Atom.internalNames) (n : Nat) :
      x ∉ (left.rename n).vars ∧ x ∉ (right.rename n).vars :=
    ⟨Atom.internal_not_mem_vars_rename hx left n, Atom.internal_not_mem_vars_rename hx right n⟩
  have hp (n : Nat) := hfresh (x := "__pattern") (by decide) n
  have hq (n : Nat) := hfresh (x := "__template") (by decide) n
  have hunify (n : Nat) := unify_sides_of_ne (rulePattern_beq_eq_false n hvars) (by decide) (hp n) (hq n)
  obtain ⟨m, hm, hatom, n, hb⟩ := exists_mem_query_equation hs hcandidates hresults hrule fun n => ⟨_, hunify n⟩
  have hbindings := Option.some.inj (hb.symm.trans (hunify n))
  obtain ⟨hpattern, htemplate⟩ := resolve?_sides (by decide) (hp n) (hq n)
  rw [← hbindings] at hpattern htemplate
  have hcopy : (left.rename n).hasVars = true := by
    rwa [Atom.hasVars_iff_ne_nil, ne_eq, Atom.vars_rename_eq_nil, ← ne_eq, ← Atom.hasVars_iff_ne_nil]
  obtain ⟨head, args, b, hmatch⟩ := exists_unify_of_vars hcopy
  refine ⟨head, args, b.subst (right.rename n), .general hm hatom ?_⟩
  simp only [generalResult?, hpattern, htemplate, Option.bind_eq_bind, Option.bind_some, hcopy, if_true, hmatch,
    Option.pure_def]

/-- An equation without variables on its left side applies to that. -/
theorem exists_applies_of_ground (hground : left.hasVars = false) (hright : right ≠ .symbol "$__result") :
    ∃ v, Applies s left (.expr [.symbol "=", left, right]) v := by
  have hleft (n : Nat) : left.rename n = left := Atom.rename_of_ground hground n
  have hfresh (n : Nat) : "__result" ∉ (right.rename n).vars :=
    Atom.internal_not_mem_vars_rename (by decide) right n
  have hunify (n : Nat) : unify (.expr [.symbol "=", left, .var "__result"])
      (.expr [.symbol "=", left.rename n, right.rename n]) ∅ =
        some ((∅ : Bindings ν).insert "__result" (right.rename n)) := by
    rw [hleft n]
    exact Unifier.unify_right (resultPattern_beq_eq_false hright n) (hfresh n)
  obtain ⟨m, hm, hatom, n, hb⟩ := exists_mem_query_equation hs hcandidates hresults hrule fun n => ⟨_, hunify n⟩
  have hbindings := Option.some.inj (hb.symm.trans (hunify n))
  have hresult := Bindings.nominal_empty.resolve?_insert (hfresh n)
  rw [Bindings.subst_empty, ← hbindings] at hresult
  refine ⟨right.rename n, .ground hm hatom ?_⟩
  rw [groundResult?, hatom, hresult]
  simp [leftSide?, hground]

end

end Evaluator

/-! ## The survey -/

namespace Space

section
variable [Scalar ν]

open Evaluator (Applies rulePattern)

/-- What the statistics say of a space and of what evaluation applies in it. -/
structure Surveyed (s : Space ν) : Prop where
  total : s.stats.total = s.size ∧ s.size = s.census fun _ => True
  ofKind : ∀ kind, s.stats.ofKind kind = s.census fun a => a.kind = kind
  sum : s.stats.total =
    s.stats.ofKind .symbol + s.stats.ofKind .var + s.stats.ofKind .expr + s.stats.ofKind .grounded
  protectedSymbols : (s.stats.protectedSymbols = s.census fun a => isProtected a = true) ∧
    (s.stats.protectedSymbols = protectedNames.length ↔ s.Protected)
  clock : s.stats.clock = s.clock
  /-- Equations are counted as rules, and so is all that has another length under their head. -/
  rules : s.stats.rules =
    s.census (Atom.IsTriple "=") + s.census fun a => a.Marked "=" ∧ ¬ a.IsTriple "="
  rules_eq_iff : s.stats.rules = s.census (Atom.IsTriple "=") ↔
    ∀ key a, s.atom? key = some a → a.Marked "=" → a.IsTriple "="
  /-- So it is with declarations. -/
  typeDeclarations : s.stats.typeDeclarations =
    s.census (Atom.IsTriple ":") + s.census fun a => a.Marked ":" ∧ ¬ a.IsTriple ":"
  typeDeclarations_eq_iff : s.stats.typeDeclarations = s.census (Atom.IsTriple ":") ↔
    ∀ key a, s.atom? key = some a → a.Marked ":" → a.IsTriple ":"
  /-- Nothing applies that has another length. What has a variable for its head applies like an equation. -/
  applied : ∀ a rule v, Applies s a rule v → s.Trusts rule ∧
    ∃ mark left right, rule = .expr [mark, left, right] ∧ (mark = .symbol "=" ∨ mark.isVar = true)
  /-- An equation applies to some expression, if its left side stands for one and no limit cuts the look-up
  short. The symbol that is spelled like the variable of the look-up passes for it, and is no result. -/
  applies : (s.candidates rulePattern).length ≤ s.config.maxCandidates →
    (s.candidates rulePattern).length ≤ s.config.maxResults →
    ∀ left right, s.Trusts (.expr [.symbol "=", left, right]) →
      (left.hasVars = true ∨ (∃ head args, left = .expr (head :: args)) ∧ right ≠ .symbol "$__result") →
        ∃ head args v, Applies s (.expr (head :: args)) (.expr [.symbol "=", left, right]) v

/-- In every space that uses lead to, the statistics agree with what is stored: all counts are numbers of
stored atoms, and the kinds sum up to the total. The protected symbols are all there unless something was removed
that evades their guard. Rules and declarations are those that have three children just if nothing of another
length is stored under their heads; evaluation applies only what has three children, and can apply every equation
whose left side stands for an expression. -/
theorem surveyed_of_uses {config : SpaceConfig ν} {s : Space ν} (h : Uses (empty config) s) :
    s.Surveyed ∧ (UsesBy .sparing (empty config) s → s.stats.protectedSymbols = protectedNames.length) := by
  have hs := h.reachable.filed
  have hd := h.reachable.distinct
  have hall : s.slots.values.countP (fun _ => true) = s.census fun _ => True := by
    rw [countP_eq_census hs hd fun _ => true]
    simp only
  have hkind (kind : Atom.Kind) : s.stats.ofKind kind = s.census fun a => a.kind = kind := by
    refine (countP_eq_census hs hd fun a => decide (a.kind = kind)).trans ?_
    simp only [decide_eq_true_eq]
  have hcount := countP_eq_census hs hd fun a => isProtected a
  have hprotected := (congrArg (· = protectedNames.length) hcount).to_iff.trans (census_isProtected_eq_iff hs)
  refine ⟨?_, fun hsparing => hprotected.2 (protected_of_usesBy hsparing)⟩
  exact {
    total := ⟨rfl, by rw [← hall, List.countP_true]; exact (List.length_map _).symm⟩
    ofKind := hkind
    sum := s.total_eq_sum
    protectedSymbols := ⟨hcount, hprotected⟩
    clock := rfl
    rules := countHead_eq_add hs hd "="
    rules_eq_iff := countHead_eq_iff hs hd "="
    typeDeclarations := countHead_eq_add hs hd ":"
    typeDeclarations_eq_iff := countHead_eq_iff hs hd ":"
    applied := fun a rule v happlies => Evaluator.three_of_applies happlies
    applies := by
      intro hcandidates hresults left right hrule hleft
      cases hvars : left.hasVars with
      | true => exact Evaluator.exists_applies_of_vars hs hcandidates hresults hrule hvars
      | false =>
        rcases hleft with hvars' | ⟨⟨head, args, rfl⟩, hright⟩
        · exact absurd (hvars.symm.trans hvars') nofun
        · exact ⟨head, args, Evaluator.exists_applies_of_ground hs hcandidates hresults hrule hvars hright⟩ }

end

/-- A space with the equations `(= (f $x) $x)` and `(= (g) a)`, with `($h (k) b)` and with `(: f T)`. -/
def ruled : Space (Exact fun _ => 1) :=
  let f : Atom (Exact fun _ => 1) := .expr [.symbol "f", .var "x"]
  let s : Space (Exact fun _ => 1) := ((empty default).add (.expr [.symbol "=", f, .var "x"])).2
  let s := (s.add (.expr [.symbol "=", .expr [.symbol "g"], .symbol "a"])).2
  let s := (s.add (.expr [.var "h", .expr [.symbol "k"], .symbol "b"])).2
  (s.add (.expr [.symbol ":", .symbol "f", .symbol "T"])).2

/-- Both equations and the declaration are counted, and the numbers are right. -/
theorem surveyed_of_uses_ruled : ruled.stats.rules = 2 ∧ ruled.stats.typeDeclarations = 1 ∧
    ruled.stats.total = protectedNames.length + 4 ∧ ruled.stats.protectedSymbols = protectedNames.length ∧
    ruled.Surveyed := by
  have huses (c : Terms (Exact fun _ => 1)) : UsesBy c (empty default) ruled :=
    .tail (.tail (.tail (.single (.step (.add _ _))) (.step (.add _ _))) (.step (.add _ _))) (.step (.add _ _))
  obtain ⟨hsurveyed, hprotected⟩ := surveyed_of_uses (huses .any)
  exact ⟨by decide +kernel, by decide +kernel, by decide +kernel, hprotected (huses .sparing), hsurveyed⟩

/-- A space with `(= a)`, which has no right side. -/
def fragment : Space (Exact fun _ => 1) :=
  ((empty default).add (.expr [.symbol "=", .symbol "a"])).2

/-- The expression is counted as a rule, and no rule is stored. -/
theorem rules_counts_fragment : ¬ ∀ (config : SpaceConfig (Exact fun _ => 1)) (s : Space (Exact fun _ => 1)),
    Uses (empty config) s → s.stats.rules = s.census (Atom.IsTriple "=") := by
  intro h
  have hreach : fragment.Reachable := ⟨default, .single (.add _ _)⟩
  have hcount := h default fragment (.single (.step (.add _ _)))
  obtain ⟨left, right, htriple⟩ := (countHead_eq_iff hreach.filed hreach.distinct "=").1 hcount "(= a)"
    (.expr [.symbol "=", .symbol "a"]) (by rfl) rfl
  cases htriple

end Space

end Atomspace
