import Atomspace.Agent
import Atomspace.Proofs.Utilities
/-!
# What learning changes

Learning from a transition counts it once more and replaces the rule of its action by the one for the
next utility (`Agent.learn_eq`). Of all other actions it changes nothing that is known
(`Agent.knows_learn`).
-/

namespace Atomspace

/-! ## Evidence -/

namespace Truth

variable {exp : Rat → Rat}

theorem count_ofEvidence (strength : Exact exp) {count : Exact exp} (h : 0 ≤ count.value) :
    (Truth.ofEvidence strength count).count.value = count.value := by
  rw [value_count_ofEvidence, max_eq_left h]

/-- Evidence adds up. -/
theorem count_merge {t u : Truth (Exact exp)} (ht : 0 ≤ t.count.value) (hu : 0 < u.count.value) :
    (t.merge u).count.value = t.count.value + u.count.value := by
  have hpos : 0 < (t.count + u.count).value := add_pos_of_nonneg_of_pos ht hu
  have hle : Scalar.le (t.count + u.count) (0.0 : Exact exp) = false := by
    rw [← Bool.not_eq_true, Exact.le_iff, Exact.value_zero, not_le]
    exact hpos
  unfold merge
  simp only [hle, Bool.false_eq_true, if_false]
  exact count_ofEvidence _ hpos.le

theorem count_unknown : (Truth.unknown : Truth (Exact exp)).count.value = 0 :=
  Exact.value_zero

end Truth

namespace Space

variable {exp : Rat → Rat} {s : Space (Exact exp)} {a c x : Atom (Exact exp)}
  {known : Option (Rat × Nat)}

open Evaluator (utilityKey utilityPattern numberRule Aside)

/-! ## Writes beside a rule -/

theorem ruleKey_eq (h : a.key = c.key) (u : Rat) : ruleKey a u = ruleKey c u := by
  apply String.toList_inj.1
  rw [ruleKey, ruleKey, Evaluator.key_toList_numberRule, Evaluator.key_toList_numberRule,
    Evaluator.key_toList_utilityKey, Evaluator.key_toList_utilityKey, h]

theorem utilityKey_key_eq (h : a.key = c.key) : (utilityKey a).key = (utilityKey c).key :=
  ((Atom.beq_iff _ _).1 ((Evaluator.utilityKey_beq_iff a c).2 h)).2

/-- Two actions of one key are known alike. -/
theorem Knows.eq_of_key {known' : Option (Rat × Nat)} (h : s.Knows a known) (h' : s.Knows c known')
    (hkey : a.key = c.key) : known = known' := by
  have hmem {u : Rat} {k : Nat} (hk : known = some (u, k)) : ∃ l, known' = some (u, l) := by
    obtain ⟨-, left, truth, hfact, -⟩ := h.rule u k hk
    rw [ruleKey_eq hkey] at hfact
    exact h'.free u (by rw [← fact?_isSome, hfact]; rfl)
  cases hk : known with
  | none =>
    cases hk' : known' with
    | none => rfl
    | some known' =>
      obtain ⟨-, left, truth, hfact, -⟩ := h'.rule known'.1 known'.2 hk'
      rw [← ruleKey_eq hkey] at hfact
      obtain ⟨l, hl⟩ := h.free known'.1 (by rw [← fact?_isSome, hfact]; rfl)
      rw [hk] at hl
      cases hl
  | some known =>
    obtain ⟨u, k⟩ := known
    obtain ⟨l, hl⟩ := hmem hk
    obtain ⟨-, left, truth, hfact, -, -, hcount⟩ := h.rule u k hk
    obtain ⟨-, left', truth', hfact', -, -, hcount'⟩ := h'.rule u l hl
    rw [ruleKey_eq hkey, hfact'] at hfact
    cases hfact
    rw [hl, Nat.cast_inj.1 (hcount.symm.trans hcount')]

/-- Whatever a write does under the keys of other atoms, what is known of an action stays. -/
theorem Knows.of_facts {t : Space (Exact exp)} (h : s.Knows a known)
    (hrule : ∀ u, t.fact? (ruleKey a u) = s.fact? (ruleKey a u))
    (hkey : ∀ b, t.atom? (utilityKey a).key = some b → (b == utilityKey a) = true → b.vars = [])
    (hatom : ∀ key b, t.atom? key = some b → s.atom? key = some b ∨ ¬ (utilityPattern a).Meets b) :
    t.Knows a known where
  rule u k hk := by
    rw [hrule]
    exact h.rule u k hk
  only key b hb hmeets := (hatom key b hb).elim (fun hb => h.only key b hb hmeets) fun hno => absurd hmeets hno
  free u hu := h.free u (by rwa [← fact?_isSome, hrule, fact?_isSome] at hu)
  plain := hkey

theorem Knows.assert_aside (hs : s.Filed) (h : s.Knows a known) (hx : Aside x) (t : Truth (Exact exp)) :
    (s.assert x t).2.Knows a known := by
  refine h.of_facts (fun u => ?_) (fun b hb => ?_) (fun key b hb => ?_)
  · rw [fact?_assert hs, if_neg (show ruleKey a u ≠ x.key from (hx.key_ne_numberRule _ _).symm)]
  · rcases atom?_assert_cases hb with hb | ⟨hkey, -⟩
    · exact h.plain b hb
    · exact absurd hkey.symm (hx.key_ne_utilityKey a)
  · rcases atom?_assert_cases hb with hb | ⟨-, -, rfl⟩
    · exact .inl hb
    · refine .inr ?_
      rintro ⟨n, hsome⟩
      rw [((aside_share hx).rename n).unify_eq_none a] at hsome
      cases hsome

theorem RulesAbout.assert_aside {actions : List (Atom (Exact exp))} (h : s.RulesAbout actions) (hx : Aside x)
    (t : Truth (Exact exp)) : (s.assert x t).2.RulesAbout actions := by
  intro key b hb hhead
  rcases atom?_assert_cases hb with hb | ⟨-, -, rfl⟩
  · exact h key b hb hhead
  · obtain ⟨hequation, hopen⟩ := (aside_share hx).headKey?_ne
    exact (hhead.elim hequation hopen).elim

theorem Knows.drop_other (h : s.Knows a known) {key : String} (hkey : ∀ u, key ≠ ruleKey a u) :
    (s.drop key).Knows a known := by
  have hatom {other : String} {b : Atom (Exact exp)} (hb : (s.drop key).atom? other = some b) :
      s.atom? other = some b := by
    rw [atom?_drop] at hb
    split at hb
    · cases hb
    · exact hb
  refine h.of_facts (fun u => ?_) (fun b hb => h.plain b (hatom hb)) (fun _ _ hb => .inl (hatom hb))
  rw [fact?_drop, if_neg (hkey u).symm]

/-- Without its rule nothing is known of an action. -/
theorem Knows.drop_rule {u : Rat} {k : Nat} (h : s.Knows a (some (u, k))) :
    (s.drop (ruleKey a u)).Knows a none where
  rule := nofun
  only key b hb hmeets := by
    rw [atom?_drop] at hb
    split at hb
    · cases hb
    · rename_i hne
      obtain ⟨v, l, hv, rfl⟩ := h.only key b hb hmeets
      cases hv
      exact absurd rfl hne
  free v hv := by
    rw [contains_eq, atom?_drop] at hv
    split at hv
    · cases hv
    · rename_i hne
      obtain ⟨l, hl⟩ := h.free v (by rwa [contains_eq])
      cases hl
      exact absurd rfl hne
  plain b hb := by
    rw [atom?_drop] at hb
    split at hb
    · cases hb
    · exact h.plain b hb

/-! ## Writing a rule -/

theorem share_numberRule (s : Space (Exact exp)) (left : Atom (Exact exp)) (x : Exact exp) :
    s.share (numberRule left x) = numberRule (s.stored left) x := by
  simp [numberRule, share, stored_symbol, stored_float]

theorem Knows.vars_stored (h : s.Knows a known) (hkey : a.key = c.key) (hc : c.vars = []) :
    (s.stored (utilityKey c)).vars = [] := by
  have hsame := utilityKey_key_eq hkey
  unfold stored
  split
  · rename_i slot hslot
    split
    · rename_i hbeq
      refine h.plain slot.atom ?_ ?_
      · rw [hsame, atom?, hslot]
        rfl
      · rw [Atom.beq_iff, hsame]
        exact (Atom.beq_iff _ _).1 hbeq
    · exact Evaluator.vars_utilityKey hc
  · exact Evaluator.vars_utilityKey hc

/-- The rule that is written is what is known of its action from then on. -/
theorem Knows.assert_rule (hs : s.Filed) (h : s.Knows a none) (hkey : a.key = c.key) (hc : c.vars = [])
    (u : Rat) {k : Nat} (hk : 1 ≤ k) (strength : Exact exp) :
    (s.assert (numberRule (utilityKey c) ⟨u⟩) (.ofEvidence strength ⟨k⟩)).2.Knows a (some (u, k)) := by
  have hfree (v : Rat) : s.fact? (ruleKey a v) = none := by
    rw [fact?_eq_none_iff, Bool.eq_false_iff]
    intro hv
    obtain ⟨l, hl⟩ := h.free v hv
    cases hl
  have hwritten : (numberRule (utilityKey c) (⟨u⟩ : Exact exp)).key = ruleKey a u := (ruleKey_eq hkey u).symm
  have hvalue : (0 : Rat) < k := by exact_mod_cast hk
  have hcount : (Truth.ofEvidence strength (⟨k⟩ : Exact exp)).count.value = k :=
    Truth.count_ofEvidence strength hvalue.le
  refine ⟨?_, ?_, ?_, ?_⟩
  · rintro _ _ ⟨⟩
    refine ⟨hk, s.stored (utilityKey c), .merge .unknown (.ofEvidence strength ⟨k⟩), ?_, ?_,
      h.vars_stored hkey hc, ?_⟩
    · rw [fact?_assert hs, if_pos hwritten.symm, hfree, share_numberRule]
      rfl
    · rw [Atom.beq_iff, (s.stored_beq _).1, (s.stored_beq _).2]
      exact ⟨rfl, utilityKey_key_eq hkey⟩
    · rw [Truth.count_merge Truth.count_unknown.ge (by rwa [hcount]), Truth.count_unknown, hcount, zero_add]
  · intro key b hb hmeets
    rcases atom?_assert_cases hb with hb | ⟨hkey', -⟩
    · obtain ⟨v, l, hv, -⟩ := h.only key b hb hmeets
      cases hv
    · exact ⟨u, k, rfl, hkey'.trans hwritten⟩
  · intro v hv
    rw [← fact?_isSome, fact?_assert hs, hfree] at hv
    split at hv
    · rename_i e
      exact ⟨k, by rw [(ruleKey_inj (e.trans hwritten)).2]⟩
    · cases hv
  · intro b hb hbeq
    rcases atom?_assert_cases hb with hb | ⟨hkey', -⟩
    · exact h.plain b hb hbeq
    · have hlist := congrArg String.toList hkey'
      rw [Evaluator.key_toList_utilityKey, Evaluator.key_toList_numberRule] at hlist
      simp at hlist

/-- A rule about one action says nothing about another one. -/
theorem Knows.assert_other {known' : Option (Rat × Nat)} (hs : s.Filed) (h : s.Knows a known)
    (h' : s.Knows c known') (hkey : a.key ≠ c.key) (ha : a.vars = []) (hc : c.vars = []) (x : Exact exp)
    (t : Truth (Exact exp)) : (s.assert (numberRule (utilityKey c) x) t).2.Knows a known := by
  refine h.of_facts (fun u => ?_) (fun b hb => ?_) (fun key b hb => ?_)
  · rw [fact?_assert hs, if_neg]
    exact fun e => hkey (Evaluator.key_utilityRule_inj e).1
  · rcases atom?_assert_cases hb with hb | ⟨hkey', -⟩
    · exact h.plain b hb
    · have hlist := congrArg String.toList hkey'
      rw [Evaluator.key_toList_utilityKey, Evaluator.key_toList_numberRule] at hlist
      simp at hlist
  · rcases atom?_assert_cases hb with hb | ⟨-, -, rfl⟩
    · exact .inl hb
    · refine .inr ?_
      have hleft := h'.vars_stored rfl hc
      rintro ⟨n, hsome⟩
      rw [share_numberRule, Atom.rename, Atom.bind_of_ground (Evaluator.vars_numberRule hleft _),
        Evaluator.unify_numberRule ha hleft, if_neg] at hsome
      · cases hsome
      · rw [Atom.beq_iff, (s.stored_beq _).2]
        exact fun e => hkey (Evaluator.key_utilityKey_inj e.2)

/-- An atom beside the rules is no candidate of the query for a utility. -/
theorem candidates_assert_aside {ν : Type} [Scalar ν] (s : Space ν) {x : Atom ν} (hx : Aside x) (a : Atom ν)
    (t : Truth ν) : (s.assert x t).2.candidates (utilityPattern a) = s.candidates (utilityPattern a) := by
  rw [candidates_utilityPattern, candidates_utilityPattern, s.bucket_assert hx.headKey?_ne.1,
    s.bucket_assert hx.headKey?_ne.2]

theorem Admits.assert_aside (h : s.Admits a known) (hx : Aside x) (t : Truth (Exact exp)) :
    (s.assert x t).2.Admits a known := by
  have hconfig := s.config_assert x t
  refine ⟨hconfig ▸ h.confidence, ?_, hconfig ▸ h.results⟩
  rw [candidates_assert_aside s hx, hconfig]
  exact h.candidates

theorem count_value? (s : Space (Exact exp)) (a : Atom (Exact exp)) :
    (s.value? a).map (fun v => v.truth.count) = (s.fact? a.key).map fun fact => fact.2.count := by
  rw [value?, fact?, Option.map_map, Option.map_map]
  rfl

end Space

namespace Agent

variable {ρ : Type} {exp : Rat → Rat}

open Evaluator (utilityKey utilityPattern numberRule)
open Space

/-! ## Learning -/

/-- The transition that an agent observes. -/
def transition {ν : Type} (state action next : Atom ν) : Atom ν :=
  .expr [.symbol "Implies", .expr [.symbol "Seq", state, action], next]

/-- What is known of an action after one more reward. -/
def improved (rate reward : Rat) (known : Option (Rat × Nat)) : Rat × Nat :=
  let (u, k) := known.getD (0, 0)
  (u + rate * (reward - u), k + 1)

/-- The space without the rule about an action. -/
def unlearned (s : Space (Exact exp)) (a : Atom (Exact exp)) : Option (Rat × Nat) → Space (Exact exp)
  | none => s
  | some (u, _) => s.drop (ruleKey a u)

theorem aside_transition {ν : Type} (state action next : Atom ν) :
    Evaluator.Aside (transition state action next) :=
  .expr (show "Implies".toList = 'I' :: "mplies".toList from rfl) (by decide)

/-- The space once a rule is written and boosted. -/
def write (a : Agent ρ (Exact exp)) (s : Space (Exact exp)) (action : Atom (Exact exp)) (u count : Exact exp) :
    Space (Exact exp) :=
  let (rule, s) := s.assert (numberRule (utilityKey action) u) (.ofEvidence 1.0 count)
  (s.boost rule a.config.rewardBoost).2

theorem read_write (a : Agent ρ (Exact exp)) (s : Space (Exact exp)) (action : Atom (Exact exp))
    (u count : Exact exp) :
    Read (s.assert (numberRule (utilityKey action) u) (.ofEvidence 1.0 count)).2 (a.write s action u count) :=
  read_touch ..

/-- Learning, once the rules about the action are read. -/
theorem learn_of_rules {a : Agent ρ (Exact exp)} {state action next : Atom (Exact exp)}
    {rules : List (Atom (Exact exp) × Exact exp)} {read s : Space (Exact exp)} {old count : Exact exp}
    (hrules : a.evaluator.utilityRules action
      (a.space.assert (transition state action next) (.observed 1.0)).2 = (rules, read))
    (hold : ((Scalar.greatest? Prod.snd rules).map Prod.snd).getD 0.0 = old)
    (hcount : (((Scalar.greatest? Prod.snd rules).bind fun rule => read.value? rule.1).map
      fun v => v.truth.count).getD 0.0 = count)
    (hstale : (rules.filter fun rule => (rule.1.children?.bind (·[1]?)) == some (utilityKey action)).foldl
      (fun s rule => (s.remove rule.1).2) read = s) (reward : Exact exp) :
    a.learn state action next reward = (old + a.config.learningRate * (reward - old),
      { a with
        space := a.write s action (old + a.config.learningRate * (reward - old)) (count + 1.0)
        phase := .learning }) := by
  unfold transition at hrules
  unfold learn
  simp only [hrules, hold, hcount, hstale]
  rfl

/-- Learning, once the one rule about the action is read. -/
theorem learn_of_rule {a : Agent ρ (Exact exp)} {state action next left : Atom (Exact exp)} {u : Rat} {k : Nat}
    {truth : Truth (Exact exp)} {read : Space (Exact exp)}
    (hrules : a.evaluator.utilityRules action
      (a.space.assert (transition state action next) (.observed 1.0)).2 = ([(numberRule left ⟨u⟩, ⟨u⟩)], read))
    (hmatch : (left == utilityKey action) = true)
    (hfact : read.fact? (numberRule left (⟨u⟩ : Exact exp)).key = some (numberRule left ⟨u⟩, truth))
    (hcount : truth.count.value = k) (reward : Exact exp) :
    a.learn state action next reward = (⟨u⟩ + a.config.learningRate * (reward - ⟨u⟩),
      { a with
        space := a.write (read.drop (numberRule left (⟨u⟩ : Exact exp)).key) action
          (⟨u⟩ + a.config.learningRate * (reward - ⟨u⟩)) (⟨k⟩ + 1.0)
        phase := .learning }) := by
  have hevidence : ((read.value? (numberRule left ⟨u⟩)).map fun v => v.truth.count).getD 0.0 = ⟨k⟩ := by
    rw [count_value?, hfact]
    exact congrArg Exact.mk hcount
  have hstale : ([(numberRule left (⟨u⟩ : Exact exp), (⟨u⟩ : Exact exp))].filter fun rule =>
      (rule.1.children?.bind (·[1]?)) == some (utilityKey action)).foldl (fun s rule => (s.remove rule.1).2) read =
        read.drop (numberRule left ⟨u⟩).key := by
    have hkept : (((numberRule left (⟨u⟩ : Exact exp)).children?.bind (·[1]?)) ==
      some (utilityKey action)) = true := hmatch
    rw [List.filter_cons_of_pos (by simpa using hkept), List.filter_nil]
    rfl
  exact learn_of_rules hrules (show _ = (⟨u⟩ : Exact exp) from rfl) hevidence hstale reward

/-- Learning asserts the transition, asks for the rule about the action, and writes a new rule in its
place. -/
theorem learn_eq {a : Agent ρ (Exact exp)} {action : Atom (Exact exp)} {known : Option (Rat × Nat)}
    (hs : a.space.Reachable) (h : a.space.Knows action known) (hadmits : a.space.Admits action known)
    (haction : action.vars = []) (state next : Atom (Exact exp)) (reward : Exact exp) :
    let new := improved a.config.learningRate.value reward.value known
    let observed := (a.space.assert (transition state action next) (.observed 1.0)).2
    let s := unlearned (observed.query (utilityPattern action)).2 action known
    a.learn state action next reward =
      (⟨new.1⟩, { a with space := a.write s action ⟨new.1⟩ ⟨new.2⟩, phase := .learning }) := by
  intro new observed s
  have hobserved : observed.Reachable := hs.step (.assert a.space _ _)
  have hknows : observed.Knows action known := h.assert_aside hs.filed (aside_transition ..) _
  have hadmits : observed.Admits action known := hadmits.assert_aside (aside_transition ..) _
  have hsum (k : Nat) : (⟨k⟩ : Exact exp) + 1.0 = ⟨(k + 1 : Nat)⟩ := by
    refine congrArg Exact.mk ?_
    rw [Exact.value_one, Nat.cast_add_one]
  cases known with
  | none =>
    have hstart : (0.0 : Exact exp) = ⟨0⟩ := congrArg Exact.mk (Exact.value_zero : (0.0 : Exact exp).value = 0)
    have hcount : (0.0 : Exact exp) = ⟨(0 : Nat)⟩ := hstart.trans (congrArg Exact.mk Nat.cast_zero.symm)
    rw [learn_of_rules (a.evaluator.utilityRules_of_unknown hknows) hstart hcount (s := s) rfl, hsum]
    rfl
  | some known =>
    obtain ⟨u, k⟩ := known
    obtain ⟨-, left, truth, hfact, -, -, hcount⟩ := hknows.rule u k rfl
    obtain ⟨_, _, hrules, hfact', hmatch⟩ :=
      a.evaluator.utilityRules_of_known hknows hobserved.filed hobserved.distinct haction hadmits
    rw [hfact] at hfact'
    cases hfact'
    have hkey : (numberRule left (⟨u⟩ : Exact exp)).key = ruleKey action u :=
      hobserved.filed.keyed _ _ (atom?_of_fact? hfact)
    rw [← hkey, ← (observed.read_query (utilityPattern action)).fact?] at hfact
    rw [learn_of_rule hrules (Atom.beq_symm hmatch) hfact hcount, hsum, hkey]
    rfl

theorem step_unlearned (s : Space (Exact exp)) (action : Atom (Exact exp)) (known : Option (Rat × Nat)) :
    Relation.ReflTransGen Step s (unlearned s action known) := by
  cases known with
  | none => exact .refl
  | some known =>
    -- a rule is no protected symbol, so removing it drops it
    exact .single (.remove s (numberRule (utilityKey action) (⟨known.1⟩ : Exact exp)))

theorem knows_unlearned {s : Space (Exact exp)} {action c : Atom (Exact exp)} {known known' : Option (Rat × Nat)}
    (h : s.Knows action known) (hc : s.Knows c known') :
    (unlearned s action known).Knows c (if c.key = action.key then none else known') := by
  cases known with
  | none =>
    split
    · rename_i hkey
      rw [hc.eq_of_key h hkey] at hc
      exact hc
    · exact hc
  | some known =>
    obtain ⟨u, k⟩ := known
    split
    · rename_i hkey
      rw [hc.eq_of_key h hkey] at hc
      have hdropped := hc.drop_rule
      rwa [ruleKey_eq hkey] at hdropped
    · rename_i hkey
      exact hc.drop_other fun v e => hkey (ruleKey_inj e).1.symm

theorem fact?_unlearned (s : Space (Exact exp)) (action : Atom (Exact exp)) {known : Option (Rat × Nat)}
    {key : String} (hkey : ∀ u, key ≠ ruleKey action u) :
    (unlearned s action known).fact? key = s.fact? key := by
  cases known with
  | none => rfl
  | some known => exact (fact?_drop _ _ _).trans (if_neg (hkey _))

theorem config_unlearned (s : Space (Exact exp)) (action : Atom (Exact exp)) (known : Option (Rat × Nat)) :
    (unlearned s action known).config = s.config := by
  cases known with
  | none => rfl
  | some known => exact config_drop _ _

section
variable {a : Agent ρ (Exact exp)} {action : Atom (Exact exp)} {known : Option (Rat × Nat)}
  (hs : a.space.Reachable) (h : a.space.Knows action known) (hadmits : a.space.Admits action known)
  (haction : action.vars = []) (state next : Atom (Exact exp)) (reward : Exact exp)
include hs h hadmits haction

/-- The answer to learning is the improved utility. -/
theorem fst_learn : (a.learn state action next reward).1 =
    ⟨(improved a.config.learningRate.value reward.value known).1⟩ := by
  rw [learn_eq hs h hadmits haction]

theorem reachable_learn : (a.learn state action next reward).2.space.Reachable := by
  have hquery := (hs.step (.assert a.space (transition state action next) (.observed 1.0))).step
    (.query _ (utilityPattern action))
  have hunlearned := hquery.steps (step_unlearned _ action known)
  rw [learn_eq hs h hadmits haction]
  exact (hunlearned.step (.assert _ _ _)).step (.boost _ _ _)

/-- Learning about one action changes what is known of that action only. -/
theorem knows_learn {c : Atom (Exact exp)} {known' : Option (Rat × Nat)} (hc : c.vars = [])
    (h' : a.space.Knows c known') : (a.learn state action next reward).2.space.Knows c
      (if c.key = action.key then some (improved a.config.learningRate.value reward.value known)
        else known') := by
  have hobserved := hs.step (.assert a.space (transition state action next) (.observed 1.0))
  have hread := (a.space.assert (transition state action next) (.observed 1.0)).2.read_query
    (utilityPattern action)
  have hfiled := ((hobserved.step (.query _ (utilityPattern action))).steps
    (step_unlearned _ action known)).filed
  have hobserve {c : Atom (Exact exp)} {known' : Option (Rat × Nat)} (h' : a.space.Knows c known') :=
    (h'.assert_aside hs.filed (aside_transition state action next) (.observed 1.0)).read hread
  have hfree := knows_unlearned (hobserve h) (hobserve h)
  have hother := knows_unlearned (hobserve h) (hobserve h')
  rw [if_pos rfl] at hfree
  rw [learn_eq hs h hadmits haction]
  split
  · rename_i hkey
    rw [if_pos hkey] at hother
    exact (hother.assert_rule hfiled hkey haction _ (Nat.le_add_left 1 _) _).read (a.read_write ..)
  · rename_i hkey
    rw [if_neg hkey] at hother
    exact (hother.assert_other hfiled hfree hkey hc haction _ _).read (a.read_write ..)

/-- Under the keys of other atoms than rules about the action, learning leaves what observing the
transition does. -/
theorem fact?_learn {key : String} (hkey : ∀ u, key ≠ ruleKey action u) :
    (a.learn state action next reward).2.space.fact? key =
      (a.space.assert (transition state action next) (.observed 1.0)).2.fact? key := by
  have hobserved := hs.step (.assert a.space (transition state action next) (.observed 1.0))
  have hfiled := ((hobserved.step (.query _ (utilityPattern action))).steps
    (step_unlearned _ action known)).filed
  have hwritten (u : Rat) : key ≠ (numberRule (utilityKey action) (⟨u⟩ : Exact exp)).key := hkey u
  rw [learn_eq hs h hadmits haction]
  simp only
  rw [(a.read_write ..).fact?, fact?_assert hfiled, if_neg (hwritten _), fact?_unlearned _ _ hkey,
    (read_query ..).fact?]

/-- Learning about an action adds no rule about another one. -/
theorem rulesAbout_learn {actions : List (Atom (Exact exp))} (hrules : a.space.RulesAbout actions)
    (hmem : action ∈ actions) : (a.learn state action next reward).2.space.RulesAbout actions := by
  intro key b hb hhead
  by_cases hkey : ∃ u, key = ruleKey action u
  · exact ⟨action, hmem, hkey⟩
  · rw [atom?_eq, fact?_learn hs h hadmits haction _ _ _ (not_exists.1 hkey), ← atom?_eq] at hb
    exact hrules.assert_aside (aside_transition state action next) _ key b hb hhead

theorem config_learn : (a.learn state action next reward).2.space.config = a.space.config := by
  rw [learn_eq hs h hadmits haction]
  simp only
  rw [(a.read_write ..).config, config_assert, config_unlearned, (read_query ..).config, config_assert]

theorem agent_config_learn : (a.learn state action next reward).2.config = a.config := by
  rw [learn_eq hs h hadmits haction]

end

end Agent

end Atomspace
