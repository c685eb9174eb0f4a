import Atomspace.Proofs.Learning
import Atomspace.Proofs.Ranking
/-!
# Stale rules

Learning takes the old rules about its action out and writes the fresh one. It does not look for the old
ones by the action: it takes those that the query for the utility finds and reads as numbers. A rule of
less confidence than the query asks for, one that the limits of a query cut off and one whose right side
gives no number are not among them.

`relearned_learn` says which rules about the action are stored afterwards. The fresh one is the only one
just if every other one that was stored was taken for stale (`Relearned.alone`), and it is stored unless
an atom that is none of the rules keeps its key (`Relearned.written`).
-/

namespace Atomspace

open Evaluator (utilityKey utilityPattern numberRule Aside)

theorem Space.Read.of_steps {ν : Type} {s t : Space ν} (h : Relation.ReflTransGen Read s t) : Read s t := by
  induction h with
  | refl => exact .refl s
  | tail _ h ih => exact ih.trans h

/-! ## Rules about an action -/

namespace Evaluator

variable {ν : Type} [Scalar ν] {action b : Atom ν}

/-- An equation for the utility of exactly this action, whatever it says that it is. -/
def RuleFor (action b : Atom ν) : Prop :=
  ∃ left value, b = .expr [.symbol "=", left, value] ∧ (left == utilityKey action) = true

theorem key_toList_rule (left value : Atom ν) : (Atom.expr [.symbol "=", left, value]).key.toList =
    '(' :: '=' :: ' ' :: (left.key.toList ++ ' ' :: (value.key.toList ++ [')'])) := by
  simp [Atom.key, Atom.keys]

theorem ruleFor_numberRule (action : Atom ν) (x : ν) : RuleFor action (numberRule (utilityKey action) x) :=
  ⟨_, _, rfl, Atom.beq_self _⟩

/-- A rule keeps what it is about when parts of it are shared. -/
theorem RuleFor.share (h : RuleFor action b) (s : Space ν) : RuleFor action (s.share b) := by
  obtain ⟨left, value, rfl, hleft⟩ := h
  refine ⟨s.stored left, s.stored value, by simp [Space.share, Space.stored_symbol], ?_⟩
  rw [Atom.beq_iff, (s.stored_beq left).1, (s.stored_beq left).2]
  exact (Atom.beq_iff _ _).1 hleft

theorem RuleFor.beq_of_key {c : Atom ν} (hb : RuleFor action b) (hc : RuleFor action c) (hkey : b.key = c.key) :
    (b == c) = true := by
  obtain ⟨_, _, rfl, -⟩ := hb
  obtain ⟨_, _, rfl, -⟩ := hc
  exact (Atom.beq_iff _ _).2 ⟨rfl, hkey⟩

/-- Atoms beside the rules have other keys than they. -/
theorem RuleFor.key_ne (h : RuleFor action b) {c : Atom ν} (hc : Aside c) : b.key ≠ c.key := by
  obtain ⟨left, value, rfl, -⟩ := h
  intro hkey
  exact hc.key_ne (.inl rfl) _ ((congrArg String.toList hkey.symm).trans (key_toList_rule left value))

omit [Scalar ν] in
theorem vars_rule {left value : Atom ν} (hleft : left.vars = []) (hvalue : value.vars = []) :
    (Atom.expr [.symbol "=", left, value]).vars = [] := by
  simp [hleft, hvalue, show (Atom.symbol "=" : Atom ν).vars = [] from rfl]

theorem vars_of_number {value : Atom ν} (h : value.number?.isSome = true) : value.vars = [] := by
  cases value with
  | int n => rfl
  | float x => rfl
  | _ => cases h

omit [Scalar ν] in
theorem resolve?_insert_of_ground {value : Atom ν} (h : value.vars = []) (x : String) :
    ((∅ : Bindings ν).insert x value).resolve? x = some value := by
  simp [Bindings.resolve?, Bindings.find?_insert, Bindings.subst, Atom.bind_of_ground h]

/-- The query for the utility finds a rule with a number, and reads that number. -/
theorem unify_number {left value : Atom ν} (haction : action.vars = []) (hleft : left.vars = [])
    (hmatch : (left == utilityKey action) = true) (hvalue : value.number?.isSome = true) :
    unify (utilityPattern action) (.expr [.symbol "=", left, value]) ∅ =
      some ((∅ : Bindings ν).insert "__utility" value) := by
  have hkey : left.key = (utilityKey action).key := ((Atom.beq_iff _ _).1 hmatch).2
  have hdiffer : (utilityPattern action == .expr [.symbol "=", left, value]) = false := by
    rw [Bool.eq_false_iff, ne_eq, Atom.beq_iff]
    rintro ⟨-, h⟩
    -- behind the same left side a name starts with `$` and a number with `&`
    have hlist := congrArg String.toList h
    rw [utilityPattern, key_toList_rule, key_toList_rule, hkey] at hlist
    simp only [List.cons.injEq, true_and, List.append_cancel_left_eq] at hlist
    rw [Atom.key_toList_var] at hlist
    cases value with
    | int n => simp [Atom.key_toList_int] at hlist
    | float x => simp [Atom.key_toList_float] at hlist
    | _ => cases hvalue
  rw [unify_rule haction hleft (vars_of_number hvalue) hdiffer, if_pos (Atom.beq_symm hmatch)]

open Unifier in
/-- Where the query finds a rule without variables, the utility that it reads is the right side. -/
theorem resolve?_of_unify {left value c : Atom ν} {b : Bindings ν} (haction : action.vars = [])
    (hleft : left.vars = []) (hvalue : value.vars = [])
    (h : unify (utilityPattern action) (.expr [.symbol "=", left, value]) ∅ = some b)
    (hc : b.resolve? "__utility" = some c) : c = value := by
  cases hsame : utilityPattern action == .expr [.symbol "=", left, value] with
  | true =>
    -- the right side is spelled like the variable of the pattern, and nothing is bound
    obtain rfl := Option.some.inj (h.symm.trans (unify_of_beq hsame))
    cases hc
  | false =>
    rw [unify_rule haction hleft hvalue hsame] at h
    split at h
    · obtain rfl := Option.some.inj h
      exact Option.some.inj (hc.symm.trans (resolve?_insert_of_ground hvalue _))
    · cases h

variable {e : Evaluator ν}

/-- A rule counts that was matched and gives a number. -/
theorem exists_match_of_mem (he : e.registry.Abides Space.Read) {l : List (Match ν)} {s : Space ν}
    {rule : Atom ν × ν} (h : rule ∈ (e.numericRules l s).1) : ∃ m ∈ l, m.atom = rule.1 ∧
      ∃ value u, m.bindings.resolve? "__utility" = some value ∧ Space.Read s u ∧
        (e.numberOf? value u).1 = some rule.2 := by
  induction l generalizing s with
  | nil => cases h
  | cons m l ih =>
    unfold numericRules at h
    split at h
    · obtain ⟨n, hn, hatom⟩ := ih h
      exact ⟨n, List.mem_cons_of_mem _ hn, hatom⟩
    · rename_i value hvalue
      rcases List.mem_append.1 h with h | h
      · obtain ⟨x, hx, rfl⟩ := Option.map_eq_some_iff.1 (Option.mem_toList.1 h)
        exact ⟨m, List.mem_cons_self, rfl, value, s, hvalue, .refl s, hx⟩
      · obtain ⟨n, hn, hatom, c, u, hc, hu, hx⟩ := ih h
        have hread := Space.Read.of_steps (numberOf?_abides Space.read_query he value s)
        exact ⟨n, List.mem_cons_of_mem _ hn, hatom, c, u, hc, hread.trans hu, hx⟩

/-- A matched rule with a number counts. -/
theorem mem_numericRules {l : List (Match ν)} {m : Match ν} (hm : m ∈ l) {value : Atom ν} {x : ν}
    (hvalue : m.bindings.resolve? "__utility" = some value) (hnumber : value.number? = some x) (s : Space ν) :
    (m.atom, x) ∈ (e.numericRules l s).1 := by
  induction l generalizing s with
  | nil => cases hm
  | cons n l ih =>
    unfold numericRules
    rcases List.mem_cons.1 hm with rfl | hm
    · simp [hvalue, numberOf?, hnumber]
    · split
      · exact ih hm s
      · exact List.mem_append_right _ (ih hm _)

end Evaluator

/-! ## Removing and writing -/

namespace Space

variable {ν : Type} [Scalar ν]

/-- Of an atom under a taken key an assertion changes the truth only. -/
theorem atom?_assert {s : Space ν} (hs : s.Filed) (a : Atom ν) (t : Truth ν) (key : String) :
    (s.assert a t).2.atom? key =
      if key = a.key then some ((s.atom? key).getD (s.share a)) else s.atom? key := by
  rw [atom?_eq, fact?_assert hs, atom?_eq]
  split
  · cases s.fact? key <;> rfl
  · rfl

theorem read_boost (s : Space ν) (a : Atom ν) (amount : ν) : Read s (s.boost a amount).2 :=
  s.read_touch a.key amount

theorem stored_of_free {s : Space ν} {a : Atom ν} (h : s.contains a.key = false) : s.stored a = a := by
  have hfree : s.slots.get? a.key = none := by simpa [contains, Table.contains] using h
  rw [stored, hfree]

/-- Removing rules frees their keys. -/
theorem atom?_removeAll {α : Type} {rules : List (Atom ν × α)} (h : ∀ rule ∈ rules, isProtected rule.1 = false)
    (s : Space ν) (key : String) : (rules.foldl (fun s rule => (s.remove rule.1).2) s).atom? key =
      if key ∈ rules.map (fun rule => rule.1.key) then none else s.atom? key := by
  induction rules generalizing s with
  | nil => rfl
  | cons rule rules ih =>
    obtain ⟨hrule, h⟩ := List.forall_mem_cons.1 h
    have hremove : (s.remove rule.1).2 = s.drop rule.1.key := by simp [remove, hrule]
    rw [List.foldl_cons, ih h, hremove, atom?_drop, List.map_cons]
    by_cases hkey : key = rule.1.key <;>
      simp only [hkey, if_true, if_false, List.mem_cons, true_or, false_or, ite_self]

/-! ## Finding rules with numbers -/

/-- Within the limits, what a query finds under a key is a match, whatever the number for renaming. -/
theorem mem_query_of_finds {s : Space ν} {p : Atom ν} {key : String} {truth : Truth ν} {m : Match ν}
    (hcandidates : (s.candidates p).length ≤ s.config.maxCandidates)
    (hresults : (s.candidates p).length ≤ s.config.maxResults) (hkey : key ∈ s.candidates p)
    (h : ∀ n, s.Finds p n key truth m) : m ∈ (s.query p).1 := by
  obtain ⟨before, after, hkeys⟩ := List.append_of_mem hkey
  refine (mem_query_iff hcandidates ((s.length_examineAll_le p _).trans hresults) m).2 ?_
  exact (s.mem_examineAll_iff p _ m).2 ⟨before, key, after, truth, hkeys, h _⟩

open Evaluator in
theorem finds_number {s : Space ν} {action left value : Atom ν} {truth : Truth ν} (haction : action.vars = [])
    (hleft : left.vars = []) (hmatch : (left == utilityKey action) = true) (hvalue : value.number?.isSome = true)
    (hfact : s.fact? (Atom.expr [.symbol "=", left, value]).key = some (.expr [.symbol "=", left, value], truth))
    (hconfident : Scalar.lt truth.confidence s.config.minConfidence = false) (n : Nat) :
    s.Finds (utilityPattern action) n (Atom.expr [.symbol "=", left, value]).key truth
      ⟨.expr [.symbol "=", left, value], (∅ : Bindings ν).insert "__utility" value, truth.score⟩ where
  fact := hfact
  confident := hconfident
  fits := rfl
  unify := by
    rw [Atom.rename, Atom.bind_of_ground (vars_rule hleft (vars_of_number hvalue))]
    exact unify_number haction hleft hmatch hvalue
  score := rfl

end Space

namespace Agent

variable {ρ ν : Type} [Scalar ν]

open Space Evaluator

/-! ## What learning takes for stale -/

/-- The space once the transition is observed. -/
def observed (a : Agent ρ ν) (state action next : Atom ν) : Space ν :=
  (a.space.assert (transition state action next) (.observed 1.0)).2

/-- What the query for the utility finds and reads as numbers, with these numbers, as far as its left
side is that of the action. -/
def staleRules (a : Agent ρ ν) (state action next : Atom ν) : List (Atom ν × ν) :=
  (a.evaluator.utilityRules action (a.observed state action next)).1.filter fun rule =>
    (rule.1.children?.bind (·[1]?)) == some (utilityKey action)

/-- The rules that learning takes for stale. -/
def stale (a : Agent ρ ν) (state action next : Atom ν) : List (Atom ν) :=
  (a.staleRules state action next).map Prod.fst

/-- The space once the stale rules are removed. -/
def cleared (a : Agent ρ ν) (state action next : Atom ν) : Space ν :=
  (a.staleRules state action next).foldl (fun s rule => (s.remove rule.1).2)
    (a.evaluator.utilityRules action (a.observed state action next)).2

/-- Learning writes the fresh rule once the stale ones are removed. -/
theorem read_learn (a : Agent ρ ν) (state action next : Atom ν) (reward : ν) : ∃ count,
    Read ((a.cleared state action next).assert
      (numberRule (utilityKey action) (a.learn state action next reward).1) (.ofEvidence 1.0 count)).2
      (a.learn state action next reward).2.space := by
  unfold learn cleared staleRules observed transition numberRule
  simp only
  exact ⟨_, read_boost _ _ _⟩

variable {a : Agent ρ ν} {state action next : Atom ν}

theorem filed_observed (hs : a.space.Filed) : (a.observed state action next).Filed :=
  hs.changes (a.space.changes_assert _ _)

/-- Observing the transition changes nothing under the key of a rule. -/
theorem fact?_observed (hs : a.space.Filed) {b : Atom ν} (hb : RuleFor action b) (state next : Atom ν) :
    (a.observed state action next).fact? b.key = a.space.fact? b.key := by
  rw [observed, fact?_assert hs, if_neg (hb.key_ne (aside_transition state action next))]

theorem atom?_observed (hs : a.space.Filed) {b : Atom ν} (hb : RuleFor action b) (state next : Atom ν) :
    (a.observed state action next).atom? b.key = a.space.atom? b.key := by
  rw [atom?_eq, atom?_eq, fact?_observed hs hb]

theorem candidates_observed (a : Agent ρ ν) (state action next : Atom ν) :
    (a.observed state action next).candidates (utilityPattern action) =
      a.space.candidates (utilityPattern action) :=
  candidates_assert_aside _ (aside_transition ..) _ _

theorem mem_stale_iff {b : Atom ν} : b ∈ a.stale state action next ↔
    (∃ x, (b, x) ∈ (a.evaluator.utilityRules action (a.observed state action next)).1) ∧
      ((b.children?.bind (·[1]?)) == some (utilityKey action)) = true := by
  simp [stale, staleRules]

/-- What is stale is stored and trusted. -/
theorem fact?_of_mem_stale (hs : a.space.Filed) (hread : a.evaluator.registry.Abides Read) {b : Atom ν}
    (hb : b ∈ a.stale state action next) :
    ∃ truth, (a.observed state action next).fact? b.key = some (b, truth) ∧
      Scalar.lt truth.confidence a.space.config.minConfidence = false := by
  obtain ⟨⟨x, hx⟩, -⟩ := mem_stale_iff.1 hb
  obtain ⟨m, hm, hatom, -⟩ := exists_match_of_mem hread hx
  obtain ⟨key, truth, n, hfinds⟩ := exists_finds_of_mem_query hm
  have hfact := hfinds.fact
  rw [hatom] at hfact
  have hkey := (filed_observed hs).keyed key b (atom?_of_fact? hfact)
  refine ⟨truth, hkey ▸ hfact, ?_⟩
  rw [← a.space.config_assert (transition state action next) (.observed 1.0)]
  exact hfinds.confident

/-- A key is that of a stale rule just if what is stored under it is stale. -/
theorem mem_keys_stale_iff (hs : a.space.Filed) (hread : a.evaluator.registry.Abides Read) {key : String}
    {b : Atom ν} (hb : (a.observed state action next).atom? key = some b) :
    key ∈ (a.stale state action next).map Atom.key ↔ b ∈ a.stale state action next := by
  have hkey := (filed_observed hs).keyed key b hb
  constructor
  · intro h
    obtain ⟨c, hc, rfl⟩ := List.mem_map.1 h
    obtain ⟨truth, hfact, -⟩ := fact?_of_mem_stale hs hread hc
    rw [atom?_of_fact? hfact] at hb
    exact Option.some.inj hb ▸ hc
  · exact fun h => List.mem_map.2 ⟨b, h, hkey⟩

/-- The right side of a stale rule without variables gives a number. -/
theorem number_of_mem_stale (hread : a.evaluator.registry.Abides Read) (haction : action.vars = [])
    {left value : Atom ν} (hleft : left.vars = []) (hvalue : value.vars = [])
    (h : .expr [.symbol "=", left, value] ∈ a.stale state action next) :
    ∃ u, Read (a.observed state action next) u ∧ (a.evaluator.numberOf? value u).1.isSome = true := by
  obtain ⟨⟨x, hx⟩, -⟩ := mem_stale_iff.1 h
  obtain ⟨m, hm, hatom, c, u, hc, hu, hx⟩ := exists_match_of_mem hread hx
  obtain ⟨key, truth, n, hfinds⟩ := exists_finds_of_mem_query hm
  have hunify := hfinds.unify
  rw [hatom, Atom.rename, Atom.bind_of_ground (vars_rule hleft hvalue)] at hunify
  obtain rfl := resolve?_of_unify haction hleft hvalue hunify hc
  exact ⟨u, (read_query _ _).trans hu, by rw [hx]; rfl⟩

/-- Within the limits of a query, a trusted rule with a number is stale. -/
theorem mem_stale_of_number (hs : a.space.Filed) (haction : action.vars = [])
    (hcandidates : (a.space.candidates (utilityPattern action)).length ≤ a.space.config.maxCandidates)
    (hresults : (a.space.candidates (utilityPattern action)).length ≤ a.space.config.maxResults)
    {left value : Atom ν} {truth : Truth ν} (hmatch : (left == utilityKey action) = true)
    (hleft : left.vars = []) (hvalue : value.number?.isSome = true)
    (hfact : a.space.fact? (Atom.expr [.symbol "=", left, value]).key =
      some (.expr [.symbol "=", left, value], truth))
    (hconfident : Scalar.lt truth.confidence a.space.config.minConfidence = false) :
    .expr [.symbol "=", left, value] ∈ a.stale state action next := by
  have hrule : RuleFor action (.expr [.symbol "=", left, value]) := ⟨left, value, rfl, hmatch⟩
  have hfact := (fact?_observed hs hrule state next).trans hfact
  have hconfig : (a.observed state action next).config = a.space.config := config_assert ..
  rw [← candidates_observed a state action next, ← hconfig] at hcandidates hresults
  rw [← hconfig] at hconfident
  have hkey := (mem_candidates_iff (filed_observed hs) _ (atom?_of_fact? hfact)).2 (.inr (.inl rfl))
  have hmem := mem_query_of_finds hcandidates hresults hkey fun n =>
    finds_number haction hleft hmatch hvalue hfact hconfident n
  obtain ⟨x, hx⟩ := Option.isSome_iff_exists.1 hvalue
  have hresolve := resolve?_insert_of_ground (vars_of_number hvalue) "__utility"
  exact mem_stale_iff.2 ⟨⟨x, mem_numericRules hmem hresolve hx _⟩, hmatch⟩

/-! ## What is stored after learning -/

/-- Reading the utility only reads, if the native code does. -/
theorem read_rules (hread : a.evaluator.registry.Abides Read) : Read (a.observed state action next)
    (a.evaluator.utilityRules action (a.observed state action next)).2 :=
  .of_steps (utilityRules_abides read_query hread action _)

theorem atom?_cleared (hread : a.evaluator.registry.Abides Read) (key : String) :
    (a.cleared state action next).atom? key =
      if key ∈ (a.stale state action next).map Atom.key then none
      else (a.observed state action next).atom? key := by
  rw [← (read_rules hread).revalued.atom?, stale, List.map_map]
  refine atom?_removeAll (fun rule hrule => ?_) _ key
  -- what has a second child is no symbol
  have hchild := (List.mem_filter.1 hrule).2
  cases hatom : rule.1 with
  | expr l => rfl
  | _ => simp [hatom, Atom.children?] at hchild

/-- Under the key of a rule that is left which was not taken for stale. -/
theorem atom?_cleared_eq_some_iff (hs : a.space.Filed) (hread : a.evaluator.registry.Abides Read)
    {r b : Atom ν} (hr : RuleFor action r) : (a.cleared state action next).atom? r.key = some b ↔
      a.space.atom? r.key = some b ∧ b ∉ a.stale state action next := by
  rw [atom?_cleared hread, ← atom?_observed hs hr state next]
  constructor
  · intro h
    split at h
    · cases h
    · rename_i hkey
      exact ⟨h, fun hb => hkey ((mem_keys_stale_iff hs hread h).2 hb)⟩
  · rintro ⟨h, hb⟩
    rwa [if_neg fun hkey => hb ((mem_keys_stale_iff hs hread h).1 hkey)]

theorem filed_cleared (hs : a.space.Filed) (hread : a.evaluator.registry.Abides Read) :
    (a.cleared state action next).Filed := by
  have hobserved : (a.observed state action next).Filed := filed_observed hs
  have hrules := hobserved.changes (read_rules hread).revalued.changes
  exact hrules.changes ((removeAll_abides conduct_step.remove _ _).lift' id fun _ _ h => h.changes)

theorem atom?_learn (hs : a.space.Filed) (hread : a.evaluator.registry.Abides Read)
    (state action next : Atom ν) (reward : ν) (key : String) :
    let fresh := numberRule (utilityKey action) (a.learn state action next reward).1
    (a.learn state action next reward).2.space.atom? key = if key = fresh.key then
        some (((a.cleared state action next).atom? key).getD ((a.cleared state action next).share fresh))
      else (a.cleared state action next).atom? key := by
  obtain ⟨count, hlearn⟩ := a.read_learn state action next reward
  rw [hlearn.revalued.atom?, atom?_assert (filed_cleared hs hread)]

theorem filed_learn (hs : a.space.Filed) (hread : a.evaluator.registry.Abides Read)
    (state action next : Atom ν) (reward : ν) : (a.learn state action next reward).2.space.Filed := by
  obtain ⟨count, hlearn⟩ := a.read_learn state action next reward
  exact ((filed_cleared hs hread).changes (changes_assert ..)).changes hlearn.revalued.changes

/-- Whatever was not taken for stale is left by learning. -/
theorem atom?_learn_of_not_stale (hs : a.space.Filed) (hread : a.evaluator.registry.Abides Read)
    {key : String} {b : Atom ν} (hb : a.space.atom? key = some b) (hnot : b ∉ a.stale state action next)
    (reward : ν) : (a.learn state action next reward).2.space.atom? key = some b := by
  have hobserved : (a.observed state action next).atom? key = some b := by
    rw [observed, atom?_assert hs, hb]
    exact ite_self _
  have hcleared : (a.cleared state action next).atom? key = some b := by
    rwa [atom?_cleared hread, if_neg fun hkey => hnot ((mem_keys_stale_iff hs hread hobserved).1 hkey)]
  rw [atom?_learn hs hread, hcleared]
  exact ite_self _

/-- A rule about the action is the fresh one, or it was there before and was not taken for stale. -/
theorem learn_cases (hs : a.space.Filed) (hread : a.evaluator.registry.Abides Read) {reward : ν}
    {key : String} {b : Atom ν} (hb : (a.learn state action next reward).2.space.atom? key = some b)
    (hrule : RuleFor action b) :
    (b == numberRule (utilityKey action) (a.learn state action next reward).1) = true ∨
      a.space.atom? key = some b ∧ b ∉ a.stale state action next := by
  obtain rfl := (filed_learn hs hread ..).keyed key b hb
  rw [atom?_learn hs hread] at hb
  split at hb
  · rename_i hkey
    exact .inl (hrule.beq_of_key (ruleFor_numberRule ..) hkey)
  · exact .inr ((atom?_cleared_eq_some_iff hs hread hrule).1 hb)

/-- The fresh rule is stored unless its key is that of an atom that is no rule about the action. -/
theorem exists_fresh_iff (hs : a.space.Filed) (hread : a.evaluator.registry.Abides Read)
    (state action next : Atom ν) (reward : ν) :
    let fresh := numberRule (utilityKey action) (a.learn state action next reward).1
    (∃ key b, (a.learn state action next reward).2.space.atom? key = some b ∧ RuleFor action b ∧
      (b == fresh) = true) ↔
    ∀ c, a.space.atom? fresh.key = some c → RuleFor action c ∨ c ∈ a.stale state action next := by
  intro fresh
  have hfresh : RuleFor action fresh := ruleFor_numberRule ..
  constructor
  · rintro ⟨key, b, hb, hrule, hbeq⟩ c hc
    refine or_iff_not_imp_right.2 fun hnot => ?_
    obtain rfl := (filed_learn hs hread ..).keyed key b hb
    rw [((Atom.beq_iff _ _).1 hbeq).2, atom?_learn_of_not_stale hs hread hc hnot] at hb
    exact Option.some.inj hb ▸ hrule
  · intro h
    refine ⟨fresh.key, _, (atom?_learn hs hread ..).trans (if_pos rfl), ?_⟩
    cases hc : (a.cleared state action next).atom? fresh.key with
    | none => exact ⟨hfresh.share _, (hfresh.share _).beq_of_key hfresh (share_key _ _)⟩
    | some c =>
      obtain ⟨hstored, hnot⟩ := (atom?_cleared_eq_some_iff hs hread hfresh).1 hc
      have hrule := (h c hstored).resolve_right hnot
      exact ⟨hrule, hrule.beq_of_key hfresh (hs.keyed _ c hstored)⟩

/-- What learning does to the rules about its action: `s` is the space before, `o` the one in which the
transition is observed and the old rules are read, and `t` the space after. -/
structure Relearned (e : Evaluator ν) (s o t : Space ν) (action fresh : Atom ν) (stale : List (Atom ν)) :
    Prop where
  /-- A rule is taken for stale only if it is stored with enough confidence. -/
  trusted : ∀ b ∈ stale, RuleFor action b → ∃ truth, s.fact? b.key = some (b, truth) ∧
    Scalar.lt truth.confidence s.config.minConfidence = false
  /-- A rule without variables is taken for stale only if its right side is a number or comes to one. -/
  numeric : ∀ left value, left.vars = [] → value.vars = [] → .expr [.symbol "=", left, value] ∈ stale →
    ∃ u, Read o u ∧ (e.numberOf? value u).1.isSome = true
  /-- Within the limits of a query, a rule with a number and enough confidence is taken for stale. -/
  number : (s.candidates (utilityPattern action)).length ≤ s.config.maxCandidates →
    (s.candidates (utilityPattern action)).length ≤ s.config.maxResults →
    ∀ left value truth, (left == utilityKey action) = true → left.vars = [] → value.number?.isSome = true →
      s.fact? (Atom.expr [.symbol "=", left, value]).key = some (.expr [.symbol "=", left, value], truth) →
      Scalar.lt truth.confidence s.config.minConfidence = false → .expr [.symbol "=", left, value] ∈ stale
  /-- Whatever is not taken for stale stays. -/
  kept : ∀ key b, s.atom? key = some b → b ∉ stale → t.atom? key = some b
  /-- Of the rules that are stored afterwards all but the fresh one were so before, and not taken for
  stale. -/
  old : ∀ key b, t.atom? key = some b → RuleFor action b →
    (b == fresh) = true ∨ s.atom? key = some b ∧ b ∉ stale
  /-- The fresh rule is stored unless its key is that of an atom that is no rule about the action. -/
  written : (∃ key b, t.atom? key = some b ∧ RuleFor action b ∧ (b == fresh) = true) ↔
    ∀ c, s.atom? fresh.key = some c → RuleFor action c ∨ c ∈ stale
  /-- The fresh rule is the only one just if all others were taken for stale. -/
  alone : (∀ key b, t.atom? key = some b → RuleFor action b → (b == fresh) = true) ↔
    ∀ key b, s.atom? key = some b → RuleFor action b → (b == fresh) = true ∨ b ∈ stale

/-- After learning there are the fresh rule and those that were not taken for stale. -/
theorem relearned_learn (hs : a.space.Reachable) (hread : a.evaluator.registry.Abides Read)
    (haction : action.vars = []) (state next : Atom ν) (reward : ν) :
    Relearned a.evaluator a.space (a.observed state action next) (a.learn state action next reward).2.space action
      (numberRule (utilityKey action) (a.learn state action next reward).1)
      (a.stale state action next) := by
  have hs := hs.filed
  have hkept {key : String} {b : Atom ν} (hb : a.space.atom? key = some b)
      (hnot : b ∉ a.stale state action next) := atom?_learn_of_not_stale hs hread hb hnot reward
  constructor
  case trusted =>
    intro b hb hrule
    rw [← fact?_observed hs hrule state next]
    exact fact?_of_mem_stale hs hread hb
  case numeric =>
    exact fun left value hleft hvalue h => number_of_mem_stale hread haction hleft hvalue h
  case number =>
    intro hcandidates hresults left value truth hmatch hleft hvalue
    exact mem_stale_of_number hs haction hcandidates hresults hmatch hleft hvalue
  case kept => exact fun key b => hkept
  case old => exact fun key b => learn_cases hs hread
  case written => exact exists_fresh_iff hs hread state action next reward
  case alone =>
    constructor
    · intro h key b hb hrule
      exact or_iff_not_imp_right.2 fun hnot => h key b (hkept hb hnot) hrule
    · intro h key b hb hrule
      rcases learn_cases hs hread hb hrule with hbeq | ⟨hstored, hnot⟩
      · exact hbeq
      · exact (h key b hstored hrule).resolve_right hnot

/-- An agent that does not trust what was observed only once. -/
def sceptic : Agent SplitMix Double where
  config := default
  evaluator := { config := default, registry := .standard }
  space := .empty { (default : SpaceConfig Double) with minConfidence := 0.6 }
  random := {}

/-- It knows a utility of going from three observations. -/
def seasoned : Agent SplitMix Double :=
  { sceptic with
    space := (sceptic.space.assert (numberRule (utilityKey (.symbol "go")) 1.0) (.observed 3)).2 }

theorem sceptic_reachable : sceptic.space.Reachable :=
  ⟨{ (default : SpaceConfig Double) with minConfidence := 0.6 }, .refl⟩

theorem seasoned_reachable : seasoned.space.Reachable :=
  sceptic_reachable.step (.assert _ _ _)

theorem fact?_seasoned : seasoned.space.fact? (numberRule (utilityKey (.symbol "go")) (1.0 : Double)).key =
    some (numberRule (utilityKey (.symbol "go")) 1.0, Truth.unknown.merge (.observed 3)) := by
  have hfree {c : Atom Double} (h : sceptic.space.contains c.key = false) : sceptic.space.fact? c.key = none :=
    fact?_eq_none_iff.2 h
  have hshare : sceptic.space.share (numberRule (utilityKey (.symbol "go")) 1.0) =
      numberRule (utilityKey (.symbol "go")) 1.0 := by
    simp only [share, numberRule, List.map_cons, List.map_nil, stored_symbol]
    rw [stored_of_free (by decide +kernel), stored_of_free (by decide +kernel)]
  rw [seasoned, fact?_assert sceptic_reachable.filed, if_pos rfl, hfree (by decide +kernel), hshare]
  rfl

/-- What it knew is stale when it learns from another observation, so one rule is left. -/
theorem relearned_learn_seasoned :
    numberRule (utilityKey (.symbol "go")) 1.0 ∈ seasoned.stale (.symbol "S") (.symbol "go") (.symbol "S") ∧
    ∀ key b, (seasoned.learn (.symbol "S") (.symbol "go") (.symbol "S") 0.0).2.space.atom? key = some b →
      RuleFor (.symbol "go") b → (b == numberRule (utilityKey (.symbol "go"))
        (seasoned.learn (.symbol "S") (.symbol "go") (.symbol "S") 0.0).1) = true := by
  have hgo : (Atom.symbol "go" : Atom Double).vars = [] := rfl
  have h := relearned_learn (a := seasoned) seasoned_reachable (Registry.abides_standard read_query) hgo
    (.symbol "S") (.symbol "S") 0.0
  have hstale := h.number (by decide +kernel) (by decide +kernel) (utilityKey (.symbol "go")) (.float 1.0) _
    (Atom.beq_self _) rfl rfl fact?_seasoned (by decide +kernel)
  refine ⟨hstale, h.alone.2 fun key b hb hrule => .inr ?_⟩
  rcases atom?_assert_cases hb with hb | ⟨rfl, -, -⟩
  · obtain ⟨left, value, rfl, -⟩ := hrule
    cases (atom?_empty hb).2
  · rw [atom?_of_fact? fact?_seasoned] at hb
    exact Option.some.inj hb ▸ hstale

/-- The agent once it has learned that to go earned the reward 1. -/
def schooled : Agent SplitMix Double :=
  (sceptic.learn (.symbol "S") (.symbol "go") (.symbol "S") 1.0).2

theorem schooled_reachable : schooled.space.Reachable :=
  sceptic_reachable.steps
    (follows_learn (a := sceptic) conduct_step (Registry.abides_standard .query) _ _ _ _).steps

/-- Another lesson, without a reward, leaves the rule of the first one beside its own. -/
theorem learn_leaves_untrusted : ¬ ∀ (a : Agent SplitMix Double) (state action next : Atom Double)
    (reward : Double), a.evaluator.registry.Abides Read → a.space.Reachable → action.vars = [] →
      ∀ key b, (a.learn state action next reward).2.space.atom? key = some b → RuleFor action b →
        (b == numberRule (utilityKey action) (a.learn state action next reward).1) = true := by
  intro h
  have hread : (Registry.standard : Registry Double).Abides Read := Registry.abides_standard read_query
  let go : Atom Double := .symbol "go"
  let first := numberRule (utilityKey go) (sceptic.learn (.symbol "S") go (.symbol "S") 1.0).1
  let rule := (sceptic.cleared (.symbol "S") go (.symbol "S")).share first
  have hfree : (sceptic.cleared (.symbol "S") go (.symbol "S")).contains first.key = false := by decide +kernel
  have hfree : (sceptic.cleared (.symbol "S") go (.symbol "S")).atom? first.key = none := by
    simpa [contains_eq] using hfree
  have hstored : schooled.space.atom? first.key = some rule :=
    (atom?_learn sceptic_reachable.filed hread _ _ _ 1.0 first.key).trans (by rw [if_pos rfl, hfree]; rfl)
  have hnone : (schooled.stale (.symbol "S") go (.symbol "S")).isEmpty = true := by decide +kernel
  have hnot : rule ∉ schooled.stale (.symbol "S") go (.symbol "S") := by simp [List.isEmpty_iff.1 hnone]
  have hleft := atom?_learn_of_not_stale schooled_reachable.filed hread hstored hnot 0.0
  have hbeq := h schooled (.symbol "S") go (.symbol "S") 0.0 hread schooled_reachable rfl _ _ hleft
    ((ruleFor_numberRule go _).share _)
  have hother : first.key ≠
      (numberRule (utilityKey go) (schooled.learn (.symbol "S") go (.symbol "S") 0.0).1).key := by decide +kernel
  exact hother ((share_key _ _).symm.trans ((Atom.beq_iff _ _).1 hbeq).2)

end Agent

end Atomspace
