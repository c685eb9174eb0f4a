import Atomspace.Agent.Utility
import Atomspace.Proofs.Copies
import Atomspace.Proofs.Exact
import Atomspace.Proofs.Legible
import Atomspace.Proofs.Weights
import Atomspace.Proofs.Writing
/-!
# Rules of utility

What a space knows of the utility of an action is at most one rule `(= (Utility action) number)`, found
by the one query that asks for it. `Knows` says which rule this is and how much evidence it has, and
`Knows.utilityRules` that this is what reading the utility gives.

The key of such a rule tells the key of the action and the number (`key_utilityRule_inj`), so rules of
different actions do not get into each other's way.
-/

namespace Atomspace

/-! ## Keys of exact numbers -/

namespace Exact

variable {exp : Rat → Rat}

open Decimal (numeralChar)

theorem toList_key (x : Exact exp) : (Scalar.key x).toList = (toString x.value.num).toList ++
    if x.value.den = 1 then [] else '/' :: Nat.toDigits 10 x.value.den := by
  show (toString x.value).toList = _
  rw [show toString x.value = if x.value.den = 1 then toString x.value.num
    else toString x.value.num ++ "/" ++ toString x.value.den from rfl]
  split <;> simp [Nat.toList_repr]

theorem numeralChar_of_mem_toString {k : Int} {c : Char} (h : c ∈ (toString k).toList) :
    numeralChar c = true :=
  Decimal.numeralChar_of_exponentOfChars? (Decimal.exponentOfChars?_toString k) c (List.mem_cons_of_mem _ h)

theorem numeralChar_or_slash {x : Exact exp} {c : Char} (h : c ∈ (Scalar.key x).toList) :
    numeralChar c = true ∨ c = '/' := by
  rw [toList_key, List.mem_append] at h
  rcases h with h | h
  · exact .inl (numeralChar_of_mem_toString h)
  · split at h
    · cases h
    · rcases List.mem_cons.1 h with rfl | h
      · exact .inr rfl
      · exact .inl (Decimal.numeralChar_of_isDigit (Decimal.digits_toDigits _ c h))

/-- The key of an exact number tells its numerator and its denominator. -/
theorem key_inj {x y : Exact exp} (h : Scalar.key x = Scalar.key y) : x = y := by
  have hlist := congrArg String.toList h
  rw [toList_key, toList_key] at hlist
  have hrest (z : Exact exp) : ∀ c ∈ (if z.value.den = 1 then [] else
      '/' :: Nat.toDigits 10 z.value.den).head?, numeralChar c = false := by
    intro c hc
    split at hc <;> cases hc
    rfl
  obtain ⟨hnum, hden⟩ := Atom.span_append_inj (fun _ => numeralChar_of_mem_toString)
    (fun _ => numeralChar_of_mem_toString) (hrest x) (hrest y) hlist
  have hnum : x.value.num = y.value.num := by
    have hread := Decimal.exponentOfChars?_toString x.value.num
    rw [hnum, Decimal.exponentOfChars?_toString] at hread
    exact (Option.some.inj hread).symm
  have hden : x.value.den = y.value.den := by
    split at hden <;> rename_i hx <;> split at hden <;> rename_i hy
    · rw [hx, hy]
    · cases hden
    · cases hden
    · have hread := congrArg (fun ds => Nat.ofDigitChars 10 ds 0) (List.cons.inj hden).2
      simpa using hread
  exact congrArg Exact.mk (Rat.ext hnum hden)

end Exact

/-! ## Unifying without variables -/

namespace Unifier

variable {ν : Type} [Scalar ν] {b : Bindings ν} {o : List String}

/-- Pairs that are dropped as equal or clash each, one after the other. -/
theorem run_zip {l : List (Atom ν)} (hrun : ∀ a ∈ l, ∀ {r : Atom ν}, a.vars = [] → r.vars = [] →
    ∀ rest, run ⟨(a, r) :: rest, b, o⟩ = if a == r then run ⟨rest, b, o⟩ else none) :
    ∀ {m : List (Atom ν)}, (∀ a ∈ l, a.vars = []) → (∀ a ∈ m, a.vars = []) → ∀ rest,
      run ⟨l.zip m ++ rest, b, o⟩ =
        if (l.zip m).all fun e => e.1 == e.2 then run ⟨rest, b, o⟩ else none := by
  induction l with
  | nil => exact fun _ _ _ => rfl
  | cons a l ih =>
    intro m hl hm rest
    cases m with
    | nil => rfl
    | cons c m =>
      obtain ⟨ha, hl⟩ := List.forall_mem_cons.1 hl
      obtain ⟨hc, hm⟩ := List.forall_mem_cons.1 hm
      rw [List.zip_cons_cons, List.cons_append, hrun a List.mem_cons_self ha hc,
        ih (fun a ha => hrun a (List.mem_cons_of_mem _ ha)) hl hm, List.all_cons]
      cases a == c <;> rfl

omit [Scalar ν] in
theorem vars_of_mem {l : List (Atom ν)} (h : (Atom.expr l).vars = []) : ∀ a ∈ l, a.vars = [] := by
  rwa [Atom.vars_expr, List.flatMap_eq_nil_iff] at h

theorem beq_of_all_zip {l m : List (Atom ν)} (hlength : l.length = m.length)
    (h : ((l.zip m).all fun e => e.1 == e.2) = true) : (Atom.expr l == .expr m) = true := by
  have hkeys : l.map Atom.key = m.map Atom.key := by
    refine List.ext_getElem (by simpa using hlength) fun i hi hi' => ?_
    rw [List.getElem_map, List.getElem_map]
    rw [List.length_map] at hi hi'
    have hmem : (l[i], m[i]) ∈ l.zip m :=
      List.mem_iff_getElem.2 ⟨i, by rw [List.length_zip]; omega, List.getElem_zip⟩
    exact ((Atom.beq_iff _ _).1 (List.all_eq_true.1 h _ hmem)).2
  rw [Atom.beq_iff, Atom.key, Atom.key, Atom.keys_eq_map, Atom.keys_eq_map, hkeys]
  exact ⟨rfl, rfl⟩

/-- Two atoms without variables are dropped as equal, or clash. -/
theorem run_of_ground {l : Atom ν} : ∀ {r : Atom ν}, l.vars = [] → r.vars = [] →
    ∀ rest, run ⟨(l, r) :: rest, b, o⟩ = if l == r then run ⟨rest, b, o⟩ else none := by
  have hself {a : Atom ν} (ha : a.vars = []) : b.subst a = a := Atom.bind_of_ground ha _
  have hequal {l r : Atom ν} (hl : l.vars = []) (hr : r.vars = []) (h : (l == r) = true) (rest) :
      run ⟨(l, r) :: rest, b, o⟩ = run ⟨rest, b, o⟩ := by
    refine run_cons (step_of_beq ?_)
    rwa [hself hl, hself hr]
  induction l using Atom.induct with
  | var x => exact fun h => nomatch h
  | constant l hconstant =>
    intro r hl hr rest
    split
    · rename_i h
      exact hequal hl hr h rest
    · rename_i hne
      refine run_cons_eq_none ?_
      simp only [step, hself hl, hself hr, hne, Bool.false_eq_true, if_false]
      cases r with
      | var x => cases hr
      | _ => cases l <;> first | rfl | cases hconstant
  | expr l ih =>
    intro r hl hr rest
    split
    · rename_i h
      exact hequal hl hr h rest
    · rename_i hne
      cases r with
      | var x => cases hr
      | expr m =>
        by_cases hlength : l.length = m.length
        · rw [run_cons (step_of_expr (hself hl) (hself hr) (Bool.eq_false_iff.2 hne) hlength),
            run_zip (fun a ha _ => ih a ha) (vars_of_mem hl) (vars_of_mem hr), if_neg]
          exact fun h => hne (beq_of_all_zip hlength h)
        · refine run_cons_eq_none ?_
          simp only [step, hself hl, hself hr, hne, Bool.false_eq_true, if_false, hlength]
      | _ =>
        refine run_cons_eq_none ?_
        simp only [step, hself hl, hself hr, hne, Bool.false_eq_true, if_false]

end Unifier

namespace Evaluator

/-! ## Patterns and rules -/

section
variable {ν : Type}

/-- The pattern of all rules about the utility of an action. -/
def utilityPattern (action : Atom ν) : Atom ν :=
  .expr [.symbol "=", utilityKey action, .var "__utility"]

/-- A rule with a number on its right side. -/
def numberRule (left : Atom ν) (x : ν) : Atom ν :=
  .expr [.symbol "=", left, .float x]

variable [Scalar ν]

theorem key_toList_utilityKey (a : Atom ν) :
    (utilityKey a).key.toList = '(' :: 'U' :: ("tility ".toList ++ (a.key.toList ++ [')'])) := by
  simp [utilityKey, Atom.key, Atom.keys]

theorem key_utilityKey_inj {a c : Atom ν} (h : (utilityKey a).key = (utilityKey c).key) : a.key = c.key := by
  have hlist := congrArg String.toList h
  rw [key_toList_utilityKey, key_toList_utilityKey] at hlist
  simp only [List.cons.injEq, true_and, List.append_cancel_left_eq, List.append_cancel_right_eq] at hlist
  exact String.toList_inj.1 hlist

theorem utilityKey_beq_iff (a c : Atom ν) : (utilityKey a == utilityKey c) = true ↔ a.key = c.key := by
  rw [Atom.beq_iff]
  constructor
  · exact fun h => key_utilityKey_inj h.2
  · intro h
    refine ⟨rfl, String.toList_inj.1 ?_⟩
    rw [key_toList_utilityKey, key_toList_utilityKey, h]

theorem key_toList_numberRule (left : Atom ν) (x : ν) : (numberRule left x).key.toList =
    '(' :: '=' :: ' ' :: (left.key.toList ++ " &float ".toList ++ (Scalar.key x).toList ++ [')']) := by
  simp [numberRule, Atom.key, Atom.keys]

theorem key_toList_utilityPattern (a : Atom ν) : (utilityPattern a).key.toList =
    '(' :: '=' :: ' ' :: ((utilityKey a).key.toList ++ " ".toList ++ "$__utility".toList ++ [')']) := by
  simp [utilityPattern, Atom.key, Atom.keys]

end

variable {exp : Rat → Rat}

/-- What stands behind the last blank is told apart from what stands before it. -/
theorem append_word_inj {v w r t : List Char} (hv : ' ' ∉ v) (hw : ' ' ∉ w)
    (h : r ++ ' ' :: v = t ++ ' ' :: w) : r = t ∧ v = w := by
  have hlist := congrArg List.reverse h
  rw [List.reverse_append, List.reverse_append, List.reverse_cons, List.reverse_cons, List.append_assoc,
    List.append_assoc] at hlist
  obtain ⟨hword, hrest⟩ := Atom.span_append_inj (p := fun c => c != ' ')
    (fun c hc => by simpa using ne_of_mem_of_not_mem (List.mem_reverse.1 hc) hv)
    (fun c hc => by simpa using ne_of_mem_of_not_mem (List.mem_reverse.1 hc) hw)
    (fun c hc => by cases hc; rfl) (fun c hc => by cases hc; rfl) hlist
  exact ⟨List.reverse_inj.1 (List.cons.inj hrest).2, List.reverse_inj.1 hword⟩

theorem not_mem_key {c : Char} (hc : Decimal.numeralChar c = false) (hslash : c ≠ '/') (x : Exact exp) :
    c ∉ (Scalar.key x).toList := by
  intro h
  rcases Exact.numeralChar_or_slash h with h | h
  · rw [hc] at h
    cases h
  · exact hslash h

/-- The key of a rule tells the key of its left side and its number. -/
theorem key_numberRule_inj {l m : Atom (Exact exp)} {x y : Exact exp}
    (h : (numberRule l x).key = (numberRule m y).key) : l.key = m.key ∧ x = y := by
  have hlist := congrArg String.toList h
  rw [key_toList_numberRule, key_toList_numberRule] at hlist
  simp only [List.cons.injEq, true_and] at hlist
  have hblank (x : Exact exp) : ' ' ∉ (Scalar.key x).toList := not_mem_key rfl (by decide) x
  obtain ⟨hleft, hnumber⟩ := append_word_inj (r := l.key.toList ++ " &float".toList)
    (t := m.key.toList ++ " &float".toList) (hblank x) (hblank y)
    (by simpa using List.append_cancel_right hlist)
  rw [List.append_cancel_right_eq] at hleft
  exact ⟨String.toList_inj.1 hleft, Exact.key_inj (String.toList_inj.1 hnumber)⟩

theorem key_utilityPattern_ne (a l : Atom (Exact exp)) (x : Exact exp) :
    (utilityPattern a).key ≠ (numberRule l x).key := by
  intro h
  have hlist := congrArg String.toList h
  rw [key_toList_utilityPattern, key_toList_numberRule] at hlist
  simp only [List.cons.injEq, true_and] at hlist
  obtain ⟨-, hname⟩ := append_word_inj (r := (utilityKey a).key.toList)
    (t := l.key.toList ++ " &float".toList) (v := "$__utility".toList) (by decide)
    (not_mem_key (c := ' ') rfl (by decide) x) (by simpa using List.append_cancel_right hlist)
  exact not_mem_key (c := '$') rfl (by decide) x (hname ▸ by decide)

/-- The key of a rule about an action tells the key of the action and the number. -/
theorem key_utilityRule_inj {a c : Atom (Exact exp)} {x y : Exact exp}
    (h : (numberRule (utilityKey a) x).key = (numberRule (utilityKey c) y).key) : a.key = c.key ∧ x = y :=
  (key_numberRule_inj h).imp_left key_utilityKey_inj

/-! ## Matching a rule -/

theorem vars_utilityKey {ν : Type} {a : Atom ν} (ha : a.vars = []) : (utilityKey a).vars = [] := by
  simp [utilityKey, ha, show (Atom.symbol "Utility" : Atom ν).vars = [] from rfl]

theorem vars_numberRule {ν : Type} {left : Atom ν} (hleft : left.vars = []) (x : ν) :
    (numberRule left x).vars = [] := by
  simp [numberRule, hleft, show (Atom.symbol "=" : Atom ν).vars = [] from rfl,
    show (Atom.float x).vars = [] from rfl]

open Unifier in
/-- A rule without variables is found for the actions that its left side is about. -/
theorem unify_rule {ν : Type} [Scalar ν] {a left value : Atom ν} (ha : a.vars = []) (hleft : left.vars = [])
    (hvalue : value.vars = []) (hdiffer : (utilityPattern a == .expr [.symbol "=", left, value]) = false) :
    unify (utilityPattern a) (.expr [.symbol "=", left, value]) ∅ =
      if utilityKey a == left then some ((∅ : Bindings ν).insert "__utility" value) else none := by
  have hrun : run ⟨[(.var "__utility", value)], ∅, []⟩ = some ((∅ : Bindings ν).insert "__utility" value) :=
    unify_var (by simp [hvalue])
  calc unify (utilityPattern a) (.expr [.symbol "=", left, value]) ∅
    _ = run ⟨[(.symbol "=", .symbol "="), (utilityKey a, left), (.var "__utility", value)], ∅, []⟩ :=
      unify_expr hdiffer rfl
    _ = run ⟨[(utilityKey a, left), (.var "__utility", value)], ∅, []⟩ :=
      run_cons (step_of_beq (Atom.beq_self _))
    _ = _ := by rw [run_of_ground (vars_utilityKey ha) hleft, hrun]

theorem unify_numberRule {a left : Atom (Exact exp)} (ha : a.vars = []) (hleft : left.vars = [])
    (x : Exact exp) : unify (utilityPattern a) (numberRule left x) ∅ =
      if utilityKey a == left then some ((∅ : Bindings (Exact exp)).insert "__utility" (.float x)) else none := by
  refine unify_rule ha hleft rfl ?_
  rw [Bool.eq_false_iff, ne_eq, Atom.beq_iff]
  exact fun h => key_utilityPattern_ne a left x h.2

/-! ## Atoms beside the rules -/

/-- A symbol, or an expression whose head is the name of something other than an equation or a
utility, and is not filed with the variables. -/
inductive Aside {ν : Type} : Atom ν → Prop
  | symbol {name : String} : name.toList.head? ≠ some '(' → Aside (.symbol name)
  | expr {name : String} {c : Char} {cs : List Char} {l : List (Atom ν)} : name.toList = c :: cs →
      c ∉ ['=', 'U', '$'] → Aside (.expr (.symbol name :: l))

section
variable {ν : Type} [Scalar ν] {a b : Atom ν}

theorem key_toList_cons (a : Atom ν) (l : List (Atom ν)) : (Atom.expr (a :: l)).key.toList =
    '(' :: (a.key.toList ++ if l.isEmpty then [')'] else ' ' :: Atom.keyRow ')' l []) := by
  rw [← Atom.keyRow_cons, Atom.keyRow, Atom.key_toList_expr]

/-- The key of an atom beside the rules starts like no rule and like no utility. -/
theorem Aside.key_ne (h : Aside b) {c : Char} (hc : c = '=' ∨ c = 'U') (r : List Char) :
    b.key.toList ≠ '(' :: c :: r := by
  intro e
  cases h with
  | @symbol name hname =>
    rw [Atom.key] at e
    exact hname (by rw [e]; rfl)
  | @expr name d cs l hname hne =>
    rw [key_toList_cons, Atom.key, hname] at e
    obtain ⟨rfl, -⟩ := List.cons.inj (List.cons.inj e).2
    rcases hc with rfl | rfl
    · exact hne (by decide)
    · exact hne (by decide)

theorem Aside.key_ne_numberRule (h : Aside b) (left : Atom ν) (x : ν) : b.key ≠ (numberRule left x).key := by
  intro e
  exact h.key_ne (.inl rfl) _ ((congrArg String.toList e).trans (key_toList_numberRule left x))

theorem Aside.key_ne_utilityKey (h : Aside b) (a : Atom ν) : b.key ≠ (utilityKey a).key := by
  intro e
  exact h.key_ne (.inr rfl) _ ((congrArg String.toList e).trans (key_toList_utilityKey a))

/-- An atom beside the rules is in none of the buckets where rules are looked for. -/
theorem Aside.headKey?_ne (h : Aside b) : Space.headKey? b ≠ some "=" ∧ Space.headKey? b ≠ some Space.openHead := by
  cases h with
  | symbol h => exact ⟨nofun, nofun⟩
  | @expr name c cs l hname hne =>
    have hhead {d : Char} (hd : d ∈ ['=', 'U', '$']) : some name ≠ some (String.ofList [d]) := by
      intro e
      rw [Option.some.inj e, String.toList_ofList] at hname
      exact hne ((List.cons.inj hname).1 ▸ hd)
    exact ⟨hhead (by decide), hhead (by decide)⟩

omit [Scalar ν] in
theorem Aside.rename (h : Aside b) (n : Nat) : Aside (b.rename n) := by
  cases h with
  | symbol h => exact .symbol h
  | expr hname hne =>
    rw [Atom.rename_expr]
    exact .expr hname hne

/-- A symbol is found for no action, whatever its name. -/
theorem unify_symbol_eq_none (a : Atom ν) (name : String) : unify (utilityPattern a) (.symbol name) ∅ = none := by
  have hdiffer : (utilityPattern a == .symbol name) = false := by
    rw [Bool.eq_false_iff, ne_eq, Atom.beq_iff]
    rintro ⟨⟨⟩, -⟩
  refine Unifier.run_cons_eq_none ?_
  simp only [Unifier.step, Bindings.subst_empty, hdiffer]
  rfl

open Unifier in
/-- An atom beside the rules is found for no action. -/
theorem Aside.unify_eq_none (h : Aside b) (a : Atom ν) : unify (utilityPattern a) b ∅ = none := by
  have hdiffer : (utilityPattern a == b) = false := by
    rw [Bool.eq_false_iff, ne_eq, Atom.beq_iff]
    rintro ⟨-, e⟩
    exact h.key_ne (.inl rfl) _ ((congrArg String.toList e.symm).trans (key_toList_utilityPattern a))
  cases h with
  | symbol h => exact unify_symbol_eq_none a _
  | @expr name c cs l hname hne =>
    by_cases hlength : [Atom.symbol "=", utilityKey a, .var "__utility"].length = (Atom.symbol name :: l).length
    · have hclash : ((Atom.symbol "=" : Atom ν) == .symbol name) = false := by
        rw [Bool.eq_false_iff, ne_eq, Atom.beq_iff]
        rintro ⟨-, e⟩
        have e : "=" = name := e
        rw [← e] at hname
        obtain ⟨rfl, -⟩ := List.cons.inj (show ['='] = c :: cs from hname)
        exact hne (by decide)
      refine (unify_expr hdiffer hlength).trans ?_
      rw [List.zip_cons_cons, run_of_ground rfl rfl, hclash]
      rfl
    · refine run_cons_eq_none ?_
      have hlength : l.length ≠ 2 := fun h => hlength (by simp [h])
      simp only [Unifier.step, Bindings.subst_empty, hdiffer]
      simp [utilityPattern, hlength]

end

end Evaluator

namespace Space

variable {ν : Type} [Scalar ν]

theorem stored_symbol (s : Space ν) (name : String) : s.stored (.symbol name) = .symbol name := by
  obtain ⟨hkind, hkey⟩ := s.stored_beq (.symbol name)
  generalize s.stored (.symbol name) = a at hkind hkey
  cases a with
  | symbol other => exact congrArg Atom.symbol hkey
  | _ => cases hkind

open Evaluator in
theorem aside_share {s : Space ν} {a : Atom ν} (h : Aside a) : Aside (s.share a) := by
  cases h with
  | symbol h => exact .symbol h
  | expr hname hne =>
    rw [share, List.map_cons, stored_symbol]
    exact .expr hname hne

variable {exp : Rat → Rat}

theorem stored_float (s : Space (Exact exp)) (x : Exact exp) : s.stored (.float x) = .float x := by
  obtain ⟨hkind, hkey⟩ := s.stored_beq (.float x)
  generalize s.stored (.float x) = a at hkind hkey
  have hlist := congrArg String.toList hkey
  rw [Atom.key_toList_float] at hlist
  cases a with
  | float y =>
    rw [Atom.key_toList_float] at hlist
    simp only [List.cons.injEq, true_and] at hlist
    exact congrArg Atom.float (Exact.key_inj (String.toList_inj.1 hlist))
  | int n =>
    rw [Atom.key_toList_int] at hlist
    simp at hlist
  | str t =>
    rw [Atom.key_toList_str] at hlist
    simp at hlist
  | list l => simp [Atom.key] at hlist
  | function name => simp [Atom.key] at hlist
  | _ => cases hkind

end Space

/-! ## What is known of an action -/

/-- The atom unifies with the pattern, once its variables have names of their own. -/
def Atom.Meets {ν : Type} [Scalar ν] (p a : Atom ν) : Prop := ∃ n, (unify p (a.rename n) ∅).isSome

namespace Space

section
variable {ν : Type} [Scalar ν]

theorem examine_of_not_meets {s : Space ν} {p b : Atom ν} {key : String} (hb : s.atom? key = some b)
    (h : ¬ p.Meets b) : (s.examine p key).1 = none := by
  have hunify : unify p (b.rename s.renamings) ∅ = none := by
    rw [← Option.not_isSome_iff_eq_none]
    exact fun hsome => h ⟨_, hsome⟩
  obtain ⟨⟨_, truth⟩, hfact, rfl⟩ := Option.map_eq_some_iff.1 ((s.atom?_eq key).symm.trans hb)
  rw [examine_eq hfact, refresh_fst, hunify, Option.map_none, ite_self]

/-- If at most one of the keys gives a match, the matches are that one. -/
theorem examineAll_eq {p : Atom ν} {m : Match ν} {key : String} {keys : List String}
    (hkeys : keys.Nodup) : ∀ {s : Space ν}, (∀ t, Read s t → (t.examine p key).1 = some m) →
      (∀ t, Read s t → ∀ other ∈ keys, other ≠ key → (t.examine p other).1 = none) →
      (s.examineAll p keys).1 = if key ∈ keys then [m] else [] := by
  induction keys with
  | nil => exact fun _ _ => rfl
  | cons other keys ih =>
    intro s hm hnone
    obtain ⟨hnew, hkeys⟩ := List.nodup_cons.1 hkeys
    have hread := s.read_examine p other
    rw [examineAll_cons, ih hkeys (fun t ht => hm t (hread.trans ht))
      (fun t ht k hk => hnone t (hread.trans ht) k (List.mem_cons_of_mem _ hk))]
    by_cases h : other = key
    · rw [h, hm s (.refl s), if_neg (h ▸ hnew), if_pos List.mem_cons_self]
      rfl
    · rw [hnone s (.refl s) other List.mem_cons_self h]
      simp [Ne.symm h]

theorem examineAll_eq_nil {p : Atom ν} {keys : List String} : ∀ {s : Space ν},
    (∀ t, Read s t → ∀ key ∈ keys, (t.examine p key).1 = none) → (s.examineAll p keys).1 = [] := by
  induction keys with
  | nil => exact fun _ => rfl
  | cons key keys ih =>
    intro s hnone
    have hread := s.read_examine p key
    rw [examineAll_cons, hnone s (.refl s) key List.mem_cons_self,
      ih fun t ht k hk => hnone t (hread.trans ht) k (List.mem_cons_of_mem _ hk)]
    rfl

end

variable {exp : Rat → Rat}

open Evaluator (utilityKey utilityPattern numberRule)

/-- The key of the rule that gives an action a utility. -/
def ruleKey (a : Atom (Exact exp)) (u : Rat) : String :=
  (numberRule (utilityKey a) (⟨u⟩ : Exact exp)).key

/-- What a space knows of an action: nothing, or a utility with an amount of evidence. What it knows is
in one rule. No other atom is taken for a rule about the action, none has the key of one, and none
with a variable has the key of the left side. -/
structure Knows (s : Space (Exact exp)) (a : Atom (Exact exp)) (known : Option (Rat × Nat)) : Prop where
  rule : ∀ u k, known = some (u, k) → 1 ≤ k ∧ ∃ left truth,
    s.fact? (ruleKey a u) = some (numberRule left ⟨u⟩, truth) ∧ (utilityKey a == left) = true ∧
      left.vars = [] ∧ truth.count.value = k
  only : ∀ key b, s.atom? key = some b → (utilityPattern a).Meets b →
    ∃ u k, known = some (u, k) ∧ key = ruleKey a u
  free : ∀ u, s.contains (ruleKey a u) = true → ∃ k, known = some (u, k)
  plain : ∀ b, s.atom? (utilityKey a).key = some b → (b == utilityKey a) = true → b.vars = []

theorem ruleKey_inj {a c : Atom (Exact exp)} {u v : Rat} (h : ruleKey a u = ruleKey c v) :
    a.key = c.key ∧ u = v := by
  obtain ⟨hkey, hvalue⟩ := Evaluator.key_utilityRule_inj h
  exact ⟨hkey, congrArg Exact.value hvalue⟩

variable {s t : Space (Exact exp)} {a : Atom (Exact exp)} {known : Option (Rat × Nat)}

theorem Knows.read (h : s.Knows a known) (hr : Read s t) : t.Knows a known where
  rule u k hk := by
    rw [hr.fact?]
    exact h.rule u k hk
  only key b hb := h.only key b (hr.revalued.atom? key ▸ hb)
  free u hu := h.free u (by rwa [contains_eq, hr.revalued.atom?, ← contains_eq] at hu)
  plain b hb := h.plain b (hr.revalued.atom? _ ▸ hb)

/-- The match that a rule gives. -/
def ruleMatch (left : Atom (Exact exp)) (u : Rat) (truth : Truth (Exact exp)) : Match (Exact exp) where
  atom := numberRule left ⟨u⟩
  bindings := (∅ : Bindings (Exact exp)).insert "__utility" (.float ⟨u⟩)
  score := truth.score

theorem not_lt_confidence {truth : Truth (Exact exp)} {k : Nat} (hk : 1 ≤ k) (hcount : truth.count.value = k)
    {x : Exact exp} (hx : x.value ≤ 1 / 2) : Scalar.lt truth.confidence x = false := by
  have hk : (1 : Rat) ≤ k := by exact_mod_cast hk
  have hconfidence : truth.confidence.value = k / (k + 1) := by
    rw [← hcount, ← show (1.0 : Exact exp).value = 1 from Exact.value_one]
    rfl
  refine decide_eq_false (not_lt.2 (hx.trans ?_))
  rw [hconfidence, div_le_div_iff₀ (by norm_num) (by linarith)]
  linarith

theorem examine_rule {left : Atom (Exact exp)} {u : Rat} {k : Nat} {truth : Truth (Exact exp)}
    {key : String} (hfact : s.fact? key = some (numberRule left ⟨u⟩, truth))
    (ha : a.vars = []) (hleft : left.vars = []) (hmatch : (utilityKey a == left) = true) (hk : 1 ≤ k)
    (hcount : truth.count.value = k) (hconfidence : s.config.minConfidence.value ≤ 1 / 2) :
    (s.examine (utilityPattern a) key).1 = some (ruleMatch left u truth) := by
  have hfits : fits (utilityPattern a) (numberRule left (⟨u⟩ : Exact exp)) = true := rfl
  rw [examine_eq hfact, not_lt_confidence hk hcount hconfidence, hfits, refresh_fst, Atom.rename,
    Atom.bind_of_ground (Evaluator.vars_numberRule hleft _), Evaluator.unify_numberRule ha hleft, hmatch]
  rfl

/-! ## Reading a utility -/

/-- The limits of queries let the rule about an action be found, if there is one. -/
structure Admits (s : Space (Exact exp)) (a : Atom (Exact exp)) (known : Option (Rat × Nat)) : Prop where
  confidence : s.config.minConfidence.value ≤ 1 / 2
  candidates : (s.candidates (utilityPattern a)).length ≤ s.config.maxCandidates
  results : known ≠ none → 1 ≤ s.config.maxResults

theorem candidates_utilityPattern {ν : Type} [Scalar ν] (s : Space ν) (a : Atom ν) :
    s.candidates (utilityPattern a) = s.bucket "=" ++ s.bucket openHead := rfl

theorem head?_utilityPattern_ne {ν : Type} (a : Atom ν) : (utilityPattern a).head? ≠ some (.symbol openHead) := by
  simp [utilityPattern, Atom.head?, Atom.children?, openHead]

/-- All that is looked up as a rule is the rule of one of some actions. -/
def RulesAbout (s : Space (Exact exp)) (actions : List (Atom (Exact exp))) : Prop :=
  ∀ key b, s.atom? key = some b → headKey? b = some "=" ∨ headKey? b = some openHead →
    ∃ c ∈ actions, ∃ u, key = ruleKey c u

theorem rulesAbout_empty (config : SpaceConfig (Exact exp)) (actions : List (Atom (Exact exp))) :
    (empty config).RulesAbout actions := by
  intro key b hb hhead
  rw [(atom?_empty hb).2] at hhead
  rcases hhead with hhead | hhead <;> cases hhead

theorem RulesAbout.read {actions : List (Atom (Exact exp))} (h : s.RulesAbout actions) (hread : Read s t) :
    t.RulesAbout actions :=
  fun key b hb => h key b (by rwa [← hread.revalued.atom?])

/-- There are no more rules than actions. -/
theorem RulesAbout.length_candidates_le {actions : List (Atom (Exact exp))} (h : s.RulesAbout actions)
    (hs : s.Filed) (hd : s.Distinct) (hknows : ∀ c ∈ actions, ∃ known, s.Knows c known) (a : Atom (Exact exp)) :
    (s.candidates (utilityPattern a)).length ≤ actions.length := by
  let keyOf (c : Atom (Exact exp)) : String :=
    ruleKey c (Classical.epsilon fun u => s.contains (ruleKey c u) = true)
  have hsub : s.candidates (utilityPattern a) ⊆ actions.map keyOf := by
    intro key hkey
    rw [candidates_utilityPattern, List.mem_append, hs.mem_bucket, hs.mem_bucket] at hkey
    obtain ⟨b, hb, hhead⟩ : ∃ b, s.atom? key = some b ∧ (headKey? b = some "=" ∨ headKey? b = some openHead) := by
      rcases hkey with ⟨b, hb, hhead⟩ | ⟨b, hb, hhead⟩
      · exact ⟨b, hb, .inl hhead⟩
      · exact ⟨b, hb, .inr hhead⟩
    obtain ⟨c, hc, u, rfl⟩ := h key b hb hhead
    obtain ⟨known, hknown⟩ := hknows c hc
    have hstored : s.contains (ruleKey c u) = true := by
      rw [contains_eq, hb]
      rfl
    -- an action has one rule
    obtain ⟨k, hk⟩ := hknown.free u hstored
    obtain ⟨l, hl⟩ := hknown.free _
      (Classical.epsilon_spec (p := fun u => s.contains (ruleKey c u) = true) ⟨u, hstored⟩)
    rw [hk] at hl
    refine List.mem_map.2 ⟨c, hc, congrArg (ruleKey c) ?_⟩
    exact (congrArg Prod.fst (Option.some.inj hl)).symm
  have hnodup := hd.nodup_candidates hs (head?_utilityPattern_ne a)
  have hlength : (actions.map keyOf).length = actions.length := List.length_map _
  rw [← hlength]
  exact (List.subperm_of_subset hnodup hsub).length_le

/-- A key other than that of the rule gives no match. -/
theorem Knows.examine_other (h : s.Knows a known) {key : String}
    (hkey : ∀ u k, known = some (u, k) → key ≠ ruleKey a u) :
    (s.examine (utilityPattern a) key).1 = none := by
  cases hb : s.atom? key with
  | none =>
    rw [atom?_eq, Option.map_eq_none_iff] at hb
    exact examine_of_free hb _
  | some b =>
    refine examine_of_not_meets hb fun hmeets => ?_
    obtain ⟨u, k, hknown, rfl⟩ := h.only key b hb hmeets
    exact hkey u k hknown rfl

theorem Knows.query_none (h : s.Knows a none) : (s.query (utilityPattern a)).1 = [] :=
  query_eq_nil (examineAll_eq_nil fun _ ht _ _ => (h.read ht).examine_other nofun)

/-- The candidates of the query give one match, the rule. -/
theorem Knows.examineAll_some {u : Rat} {k : Nat} (h : s.Knows a (some (u, k))) (hs : s.Filed)
    (hd : s.Distinct) (ha : a.vars = []) (hconfidence : s.config.minConfidence.value ≤ 1 / 2) :
    ∃ left truth, (s.examineAll (utilityPattern a) (s.candidates (utilityPattern a))).1 =
        [ruleMatch left u truth] ∧
      s.fact? (ruleKey a u) = some (numberRule left ⟨u⟩, truth) ∧ (utilityKey a == left) = true := by
  obtain ⟨hk, left, truth, hfact, hmatch, hleft, hcount⟩ := h.rule u k rfl
  refine ⟨left, truth, ?_, hfact, hmatch⟩
  have hmem : ruleKey a u ∈ s.candidates (utilityPattern a) :=
    (mem_candidates_iff hs _ (atom?_of_fact? hfact)).2 (.inr (.inl rfl))
  have hmatches := examineAll_eq (s := s) (p := utilityPattern a) (hd.nodup_candidates hs (head?_utilityPattern_ne a))
    (fun t ht => examine_rule ((ht.fact? _).trans hfact) ha hleft hmatch hk hcount
      (ht.config ▸ hconfidence))
    (fun t ht other _ hother => (h.read ht).examine_other fun v l hv => by cases hv; exact hother)
  rwa [if_pos hmem] at hmatches

theorem Knows.query_some {u : Rat} {k : Nat} (h : s.Knows a (some (u, k))) (hs : s.Filed)
    (hd : s.Distinct) (ha : a.vars = []) (hadmits : s.Admits a (some (u, k))) :
    ∃ left truth, (s.query (utilityPattern a)).1 = [ruleMatch left u truth] ∧
      s.fact? (ruleKey a u) = some (numberRule left ⟨u⟩, truth) ∧ (utilityKey a == left) = true := by
  obtain ⟨left, truth, hmatches, hrule⟩ := h.examineAll_some hs hd ha hadmits.confidence
  exact ⟨left, truth, query_eq_singleton hadmits.candidates (hadmits.results nofun) hmatches, hrule⟩

end Space

namespace Evaluator

variable {exp : Rat → Rat} {s : Space (Exact exp)} {a : Atom (Exact exp)} (e : Evaluator (Exact exp))

theorem resolve?_ruleMatch (left : Atom (Exact exp)) (u : Rat) (truth : Truth (Exact exp)) :
    (Space.ruleMatch left u truth).bindings.resolve? "__utility" = some (.float ⟨u⟩) := by
  simp [Space.ruleMatch, Bindings.resolve?, Bindings.find?_insert, Bindings.subst, Atom.bind]

theorem utilityRules_of_unknown (h : s.Knows a none) :
    e.utilityRules a s = ([], (s.query (utilityPattern a)).2) := by
  have hquery := h.query_none
  unfold utilityRules
  show e.numericRules (s.query (utilityPattern a)).1 (s.query (utilityPattern a)).2 = _
  rw [hquery]
  rfl

theorem utilityRules_of_known {u : Rat} {k : Nat} (h : s.Knows a (some (u, k))) (hs : s.Filed)
    (hd : s.Distinct) (ha : a.vars = []) (hadmits : s.Admits a (some (u, k))) :
    ∃ left truth, e.utilityRules a s =
        ([(numberRule left ⟨u⟩, ⟨u⟩)], (s.query (utilityPattern a)).2) ∧
      s.fact? (Space.ruleKey a u) = some (numberRule left ⟨u⟩, truth) ∧ (utilityKey a == left) = true := by
  obtain ⟨left, truth, hquery, hfact, hmatch⟩ := h.query_some hs hd ha hadmits
  refine ⟨left, truth, ?_, hfact, hmatch⟩
  unfold utilityRules
  show e.numericRules (s.query (utilityPattern a)).1 (s.query (utilityPattern a)).2 = _
  rw [hquery]
  simp only [numericRules, resolve?_ruleMatch]
  rfl

/-- The utility that is read is the one that is known. -/
theorem utility_eq {known : Option (Rat × Nat)} (h : s.Knows a known) (hs : s.Filed) (hd : s.Distinct)
    (ha : a.vars = []) (hadmits : s.Admits a known) :
    e.utility a s = (known.map fun k => ⟨k.1⟩, (s.query (utilityPattern a)).2) := by
  unfold utility
  cases known with
  | none => rw [e.utilityRules_of_unknown h]; rfl
  | some known =>
    obtain ⟨u, k⟩ := known
    obtain ⟨left, truth, hrules, -⟩ := e.utilityRules_of_known h hs hd ha hadmits
    rw [hrules]
    rfl

end Evaluator

end Atomspace
