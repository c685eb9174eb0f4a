import Atomspace.Proofs.Programs
import Atomspace.Proofs.Tidy
/-!
# Evaluation does not depend on names

An atom with other names for its variables has the renamed results, and leaves the same space behind
(`Evaluator.eval_equivariant`). No name that changes may be `__result`, which is the name that the
interpreter puts next to an atom, and none may show in the space: the items of a stored list are data, and
the index looks up a compound head by its key, names included.
-/

namespace Atomspace

variable {ν : Type}

namespace Space

/-! ## Names that may change -/

/-- The name shows in the space: it is in a list, or in a compound head. -/
def Shows (s : Space ν) (x : String) : Prop :=
  ∃ key a, s.atom? key = some a ∧
    (x ∈ a.listNames ∨ ∃ head l, a = .expr (head :: l) ∧ head.isVar = false ∧ x ∈ head.names)

/-- Other names for the variables of an atom, which are kept apart and have no numbers, and of which
neither the interpreter nor the space takes notice. -/
structure Renaming (D : Set (Atom ν)) (s : Space ν) (t : Atom ν) (f : String → String) : Prop where
  inj : Set.InjOn f {x | x ∈ t.names}
  outside : ∀ x ∉ t.names, f x = x
  var : ∀ x ∈ t.names, .var (f x) ∈ D
  plain : ∀ x ∈ t.names, '#' ∉ x.toList ∧ '#' ∉ (f x).toList
  unseen : ∀ x ∈ t.names, f x = x ∨ ∀ y ∈ [x, f x], y ≠ "__result" ∧ ¬ s.Shows y

/-- A name that may come up when the atom is evaluated. -/
def Met (s : Space ν) (t : Atom ν) (x : String) : Prop :=
  x ∈ t.names ∨ x = "__result" ∨ s.Shows x ∨ '#' ∈ x.toList

variable {D : Set (Atom ν)} {s : Space ν} {t : Atom ν} {f : String → String}

namespace Renaming

variable (hf : Renaming D s t f)
include hf

theorem eq_self_of_shows {x : String} (h : s.Shows x ∨ s.Shows (f x)) : f x = x := by
  by_cases hx : x ∈ t.names
  · refine (hf.unseen x hx).resolve_right fun hfree => ?_
    exact h.elim (hfree x (by simp)).2 (hfree (f x) (by simp)).2
  · exact hf.outside x hx

theorem result_eq : f "__result" = "__result" := by
  by_cases hx : "__result" ∈ t.names
  · exact (hf.unseen _ hx).resolve_right fun hfree => (hfree _ (by simp)).1 rfl
  · exact hf.outside _ hx

theorem eq_self_of_sharp {x : String} (h : '#' ∈ x.toList) : f x = x :=
  hf.outside x fun hx => (hf.plain x hx).1 h

/-- A name that changes goes to none that may come up and stays. -/
theorem image_ne {x y : String} (hx : x ∈ t.names) (hmoved : f x ≠ x) (hy : s.Met t y) (hout : y ∉ t.names) :
    f x ≠ y := by
  rintro rfl
  have hfree := (hf.unseen x hx).resolve_left hmoved (f x) (by simp)
  rcases hy with hy | hy | hy | hy
  · exact hout hy
  · exact hfree.1 hy
  · exact hfree.2 hy
  · exact (hf.plain x hx).2 hy

theorem injOn_met : Set.InjOn f {x | s.Met t x} := by
  have hmixed {x y : String} (hx : x ∈ t.names) (hy : s.Met t y) (hout : y ∉ t.names) (e : f x = f y) : x = y := by
    rw [hf.outside y hout] at e
    by_cases hmoved : f x = x
    · rw [← hmoved, e]
    · exact absurd e (hf.image_ne hx hmoved hy hout)
  intro x hx y hy e
  by_cases hxt : x ∈ t.names <;> by_cases hyt : y ∈ t.names
  · exact hf.inj hxt hyt e
  · exact hmixed hxt hy hyt e
  · exact (hmixed hyt hx hxt e.symm).symm
  · rwa [hf.outside x hxt, hf.outside y hyt] at e

end Renaming

end Space

variable [Scalar ν]

/-! ## What evaluation makes of an atom -/

/-- A set of atoms that has all that evaluation makes of its atoms, under any names in the set, and in
which keys tell atoms apart. -/
structure Atom.Universe (D : Set (Atom ν)) : Prop where
  ample : Ample D
  closed : Native.Closed D
  item : ∀ {l : List (Atom ν)} {a : Atom ν}, .list l ∈ D → a ∈ l → a ∈ D
  mapNames : ∀ {a : Atom ν} {f : String → String}, a ∈ D → (∀ x ∈ a.names, .var (f x) ∈ D) → a.mapNames f ∈ D
  key_inj : ∀ {a b : Atom ν}, a ∈ D → b ∈ D → a.key = b.key → a = b

theorem Atom.universe_tidy : Universe {a : Atom ν | Tidy ∅ a} where
  ample := ample_tidy worded_empty
  closed := closed_tidy
  item h ha := by
    cases h with
    | list h => exact h _ ha
  mapNames ha := ha.mapNames
  key_inj ha hb := ha.key_inj worded_empty hb

theorem Atom.Universe.var_mem {D : Set (Atom ν)} (hD : Universe D) {a : Atom ν} (ha : a ∈ D) {x : String}
    (hx : x ∈ a.names) : .var x ∈ D := by
  induction a using inductAll with
  | var y =>
    obtain rfl := List.mem_singleton.1 hx
    exact ha
  | expr l ih =>
    rw [names_expr] at hx
    obtain ⟨a, hl, hx⟩ := List.mem_flatMap.1 hx
    exact ih a hl (hD.ample.faithful.part ha hl) hx
  | list l ih =>
    rw [names_list] at hx
    obtain ⟨a, hl, hx⟩ := List.mem_flatMap.1 hx
    exact ih a hl (hD.item ha hl) hx
  | leaf a hleaf =>
    rw [names_leaf hleaf] at hx
    cases hx

namespace Space

variable {D : Set (Atom ν)} {s : Space ν} {t : Atom ν} {f : String → String}

/-! ## The space -/

/-- What is filed under the key of a head with names in it has a head of the same key. -/
theorem cons_of_headKey? {a head : Atom ν} (hvar : head.isVar = false) (hnames : head.names ≠ [])
    (h : headKey? a = some head.key) :
    ∃ other l, a = .expr (other :: l) ∧ other.isVar = false ∧ other.key = head.key := by
  have hopen : head.key ≠ openHead := by
    intro e
    have hchars := congrArg String.toList e
    cases head with
    | var => cases hvar
    | expr => simp [Atom.key_toList_expr, openHead] at hchars
    | list => simp [Atom.key_toList_list, openHead] at hchars
    | _ => exact hnames rfl
  cases a with
  | expr l =>
    cases l with
    | nil => exact absurd (Option.some.inj h).symm hopen
    | cons other l =>
      refine ⟨other, l, rfl, ?_⟩
      cases other with
      | var => exact absurd (Option.some.inj h).symm hopen
      | _ => exact ⟨rfl, Option.some.inj h⟩
  | _ => cases h

section
variable (hkey : Set.InjOn Atom.key D) (hs : s.Filed) (hwithin : s.Within D)
  (hshows : ∀ x, s.Shows x ∨ s.Shows (f x) → f x = x)
include hkey hs hwithin

/-- The names in a compound head that something is filed under show. -/
theorem shows_of_mem_bucket (hD : Atom.Faithful D) {head : Atom ν} (hhead : head ∈ D) (hvar : head.isVar = false)
    {key : String} (hmem : key ∈ s.bucket head.key) {x : String} (hx : x ∈ head.names) : s.Shows x := by
  obtain ⟨a, ha, hfiled⟩ := (hs.mem_bucket _ _).1 hmem
  obtain ⟨other, l, rfl, hother, hsame⟩ := cons_of_headKey? hvar (List.ne_nil_of_mem hx) hfiled
  obtain rfl := hkey (hD.part (hwithin key _ ha) List.mem_cons_self) hhead hsame
  exact ⟨key, _, ha, .inr ⟨other, l, rfl, hvar, hx⟩⟩

/-- The names in a list that is stored show. -/
theorem shows_of_contains {l : List (Atom ν)} (hl : .list l ∈ D) (hstored : s.contains (Atom.list l).key = true)
    {x : String} (hx : x ∈ (Atom.list l).names) : s.Shows x := by
  rw [contains_eq, Option.isSome_iff_exists] at hstored
  obtain ⟨a, ha⟩ := hstored
  obtain rfl := hkey (hwithin _ _ ha) hl (hs.keyed _ a ha)
  exact ⟨_, _, ha, .inl hx⟩

include hshows

/-- The index does not tell a head from the renamed one if no name that shows changes. -/
theorem bucket_mapNames (hD : Atom.Faithful D) {head : Atom ν} (hhead : head ∈ D) (hmapped : head.mapNames f ∈ D)
    (hvar : head.isVar = false) : s.bucket (head.mapNames f).key = s.bucket head.key := by
  by_cases hsame : ∀ x ∈ head.names, f x = x
  · rw [Atom.mapNames_eq_self hsame]
  · push Not at hsame
    obtain ⟨x, hx, hmoved⟩ := hsame
    -- nothing is filed under the head, or its names would show
    have hempty : s.bucket head.key = [] := by
      refine List.eq_nil_iff_forall_not_mem.2 fun key hmem => hmoved (hshows x (.inl ?_))
      exact shows_of_mem_bucket hkey hs hwithin hD hhead hvar hmem hx
    have hempty' : s.bucket (head.mapNames f).key = [] := by
      refine List.eq_nil_iff_forall_not_mem.2 fun key hmem => hmoved (hshows x (.inr ?_))
      refine shows_of_mem_bucket hkey hs hwithin hD hmapped ?_ hmem ?_
      · cases head with
        | var => cases hvar
        | _ => rfl
      · rw [Atom.names_mapNames]
        exact List.mem_map_of_mem hx
    rw [hempty, hempty']

/-- A list that is stored, or is stored after the renaming, keeps its names. -/
theorem list_mapNames {l : List (Atom ν)} (hl : .list l ∈ D) (hmapped : (Atom.list l).mapNames f ∈ D)
    (hstored : s.contains (Atom.list l).key = true ∨ s.contains ((Atom.list l).mapNames f).key = true) :
    (Atom.list l).mapNames f = .list l := by
  refine Atom.mapNames_eq_self fun x hx => hshows x ?_
  refine hstored.imp (fun h => shows_of_contains hkey hs hwithin hl h hx) fun h => ?_
  have hx' : f x ∈ ((Atom.list l).mapNames f).names := by
    rw [Atom.names_mapNames]
    exact List.mem_map_of_mem hx
  rw [Atom.mapNames_list] at hmapped h hx'
  exact shows_of_contains hkey hs hwithin hmapped h hx'

end

/-! ## Atoms in which only some names come up -/

/-- The atoms of the set in which no name comes up but those that may. -/
def metBy (D : Set (Atom ν)) (s : Space ν) (t : Atom ν) : Set (Atom ν) :=
  {a | a ∈ D ∧ ∀ x ∈ a.names, s.Met t x}

omit [Scalar ν] in
theorem mem_metBy_all {l : List (Atom ν)} (h : ∀ a ∈ l, a ∈ metBy D s t) :
    (∀ a ∈ l, a ∈ D) ∧ ∀ x ∈ l.flatMap Atom.names, s.Met t x := by
  refine ⟨fun a ha => (h a ha).1, fun x hx => ?_⟩
  obtain ⟨a, ha, hx⟩ := List.mem_flatMap.1 hx
  exact (h a ha).2 x hx

theorem faithful_metBy (hD : Atom.Universe D) : Atom.Faithful (metBy D s t) where
  part h ha := by
    refine ⟨hD.ample.faithful.part h.1 ha, fun x hx => h.2 x ?_⟩
    rw [Atom.names_expr]
    exact Atom.names_of_mem ha hx
  bind {a g} ha hg := by
    refine ⟨hD.ample.faithful.bind ha.1 fun x hx => (hg x hx).1, fun x hx => ?_⟩
    rcases Atom.mem_names_bind hx with hx | ⟨y, hy, hx⟩
    · exact ha.2 x (Atom.mem_names_of_mem_listNames hx)
    · exact (hg y hy).2 x hx
  eq_of_beq ha hb := hD.ample.faithful.eq_of_beq ha.1 hb.1

theorem closed_metBy (hD : Atom.Universe D) : Native.Closed (metBy D s t) where
  truth b := ⟨hD.closed.truth b, nofun⟩
  list h := by
    obtain ⟨hmem, hnames⟩ := mem_metBy_all h
    exact ⟨hD.closed.list hmem, by rwa [Atom.names_list]⟩
  int h m := ⟨hD.closed.int h.1 m, nofun⟩
  float h y := ⟨hD.closed.float h.1 y, nofun⟩

namespace Renaming

variable (hD : Atom.Universe D) (hf : Renaming D s t f)
include hD hf

theorem mapNames_mem {a : Atom ν} (ha : a ∈ D) : a.mapNames f ∈ D := by
  refine hD.mapNames ha fun x hx => ?_
  by_cases hxt : x ∈ t.names
  · exact hf.var x hxt
  · rw [hf.outside x hxt]
    exact hD.var_mem ha hx

theorem naming : Atom.Naming (metBy D s t) f where
  ample := ⟨D, hD.ample, fun _ h => h.1⟩
  faithful := faithful_metBy hD
  expr h := by
    obtain ⟨hmem, hnames⟩ := mem_metBy_all h
    exact ⟨hD.ample.expr hmem, by rwa [Atom.names_expr]⟩
  equals := ⟨hD.ample.equals, nofun⟩
  result := by
    refine ⟨hD.ample.internal _ (by decide), fun x hx => ?_⟩
    exact .inr (.inl (List.mem_singleton.1 hx))
  result_eq := hf.result_eq
  inj x y hx hy := hf.injOn_met (hx.2 x List.mem_cons_self) (hy.2 y List.mem_cons_self)
  key_iff {a b} ha hb := by
    constructor
    · intro h
      have hmapped := hD.key_inj (hf.mapNames_mem hD ha.1) (hf.mapNames_mem hD hb.1) h
      rw [Atom.mapNames_inj hf.injOn_met ha.2 hb.2 hmapped]
    · intro h
      rw [hD.key_inj ha.1 hb.1 h]

theorem unmoved (hs : s.Filed) (hwithin : s.Within D) : s.Unmoved (metBy D s t) f where
  copies key a ha n := by
    have hnames {x : String} (hx : x ∈ (a.rename n).names) : s.Shows x ∨ '#' ∈ x.toList := by
      rcases Atom.mem_names_bind hx with hx | ⟨y, -, hx⟩
      · exact .inl ⟨key, a, ha, .inl hx⟩
      · exact .inr (List.mem_singleton.1 hx ▸ Atom.mem_toList_numbered y n)
    refine ⟨⟨hD.ample.rename (hwithin key a ha) n, fun x hx => .inr (.inr (hnames hx))⟩, fun x hx => ?_⟩
    rcases hnames hx with hshows | hsharp
    · exact hf.eq_self_of_shows (.inl hshows)
    · exact hf.eq_self_of_sharp hsharp
  heads head hhead hvar := bucket_mapNames (fun _ ha _ hb => hD.key_inj ha hb) hs hwithin
    (fun _ => hf.eq_self_of_shows) hD.ample.faithful hhead.1 (hf.mapNames_mem hD hhead.1) hvar
  lists l hl hstored := list_mapNames (fun _ ha _ hb => hD.key_inj ha hb) hs hwithin
    (fun _ => hf.eq_self_of_shows) hl.1 (hf.mapNames_mem hD hl.1) hstored

end Renaming

end Space

/-! ## Evaluation -/

/-- Code that looks at no names, whatever atoms it works on. -/
def Registry.Nameless (r : Registry ν) : Prop :=
  ∀ (D : Set (Atom ν)) (f : String → String), Atom.Naming D f → Native.Closed D → r.Blind D f

theorem Registry.nameless_standard : (Registry.standard : Registry ν).Nameless :=
  fun _ _ => Registry.blind_standard

namespace Evaluator

/-- With other names for its variables an atom has the same results, but for these names, and leaves the
same space behind. -/
theorem eval_equivariant (ev : Evaluator ν) (hregistry : ev.registry.Nameless) {D : Set (Atom ν)}
    (hD : Atom.Universe D) {s : Space ν} (hs : s.Reachable) (hwithin : s.Within D) {t : Atom ν} (ht : t ∈ D)
    {f : String → String} (hf : Space.Renaming D s t f) (depth : Nat) :
    ev.eval (t.mapNames f) depth s =
      ((ev.eval t depth s).1.map (Atom.mapNames f), (ev.eval t depth s).2) := by
  have hnaming := hf.naming hD
  have hblind := hregistry _ f hnaming (Space.closed_metBy hD)
  exact eval_mapNames hnaming hblind (hf.unmoved hD hs.filed hwithin) ⟨ht, fun _ => .inl⟩ depth

/-! ### Another name for one variable -/

/-- Another name for `y`. -/
def calling (name x : String) : String :=
  if x = "y" then name else x

/-- A call of a symbol with one variable, of any name. -/
def callOf (symbol x : String) : Atom (Exact fun _ => 1) :=
  .expr [.symbol symbol, .var x]

theorem eq_of_mem_names_callOf {symbol x y : String} (h : y ∈ (callOf symbol x).names) : y = x :=
  List.mem_singleton.1 h

theorem injOn_callOf (symbol x : String) (f : String → String) : Set.InjOn f {y | y ∈ (callOf symbol x).names} :=
  fun _ hy _ hz _ => (eq_of_mem_names_callOf hy).trans (eq_of_mem_names_callOf hz).symm

theorem calling_outside (symbol name : String) : ∀ x ∉ (callOf symbol "y").names, calling name x = x :=
  fun x hx => if_neg fun e : x = "y" => hx (e ▸ List.mem_cons_self)

theorem mapNames_callOf (symbol name : String) :
    (callOf symbol "y").mapNames (calling name) = callOf symbol name := rfl

theorem tidy_callOf {symbol x : String} (h : Atom.isTidyName symbol = true) (hx : Atom.isTidyWord x = true) :
    Atom.Tidy ∅ (callOf symbol x) :=
  .call h (List.forall_mem_singleton.2 (.var hx))

theorem twice_tidy : twice.Within {a | Atom.Tidy ∅ a} := by
  have hnames : ∀ name ∈ Space.protectedNames, Atom.isTidyName name = true := by decide
  have hx : Atom.Tidy ∅ (.var "x" : Atom (Exact fun _ => 1)) := .var (by decide)
  intro key a ha
  rcases mem_twice ha with ⟨name, hname, rfl⟩ | rfl
  · exact .symbol (hnames name hname)
  · exact .triple (by decide) (tidy_callOf (by decide) (by decide)) (.triple (by decide) hx hx)

/-- Nothing shows in the space with the rule, also not the variable of the rule. -/
theorem not_shows_twice (x : String) : ¬ twice.Shows x := by
  rintro ⟨key, a, ha, hshows⟩
  rcases mem_twice ha with ⟨name, hname, rfl⟩ | rfl
  · rcases hshows with hx | ⟨head, l, ⟨⟩, -⟩
    cases hx
  · rcases hshows with hx | ⟨head, l, ⟨⟩, -, hx⟩ <;> cases hx

theorem renaming_twice : Space.Renaming {a | Atom.Tidy ∅ a} twice (callOf "twice" "y") (calling "x") where
  inj := injOn_callOf _ _ _
  outside := calling_outside _ _
  var x hx := by
    obtain rfl := eq_of_mem_names_callOf hx
    exact .var (by decide)
  plain x hx := by
    obtain rfl := eq_of_mem_names_callOf hx
    decide
  unseen x hx := by
    obtain rfl := eq_of_mem_names_callOf hx
    exact .inr fun y hy => ⟨(by decide : ∀ y ∈ ["y", calling "x" "y"], y ≠ "__result") y hy, not_shows_twice y⟩

/-- The name of the variable in the rule is as good as another one. -/
theorem eval_equivariant_twice : usual.eval ((callOf "twice" "y").mapNames (calling "x")) 3 twice =
    ((usual.eval (callOf "twice" "y") 3 twice).1.map (Atom.mapNames (calling "x")),
      (usual.eval (callOf "twice" "y") 3 twice).2) := by
  have hreachable : twice.Reachable := ⟨default, .single (.add _ _)⟩
  exact eval_equivariant usual Registry.nameless_standard Atom.universe_tidy hreachable twice_tidy
    (tidy_callOf (by decide) (by decide)) renaming_twice 3

/-! ### One level -/

section
variable {ν : Type} [Scalar ν]

omit [Scalar ν] in
theorem run_bind {α β : Type} (m : Evaluating ν α) (k : α → Evaluating ν β) (e : Evaluation ν) :
    (m >>= k) e = k (m e).1 (m e).2 := rfl

omit [Scalar ν] in
theorem run_pure {α : Type} (a : α) (e : Evaluation ν) : (pure a : Evaluating ν α) e = (a, e) := rfl

theorem run_ask (pattern : Atom ν) (e : Evaluation ν) :
    ask pattern e = ((e.space.query pattern).1, { e with space := (e.space.query pattern).2 }) := rfl

theorem applyGeneral_of_none {recur : Atom ν → Evaluating ν (List (Atom ν))} {a : Atom ν} {l : List (Match ν)}
    (h : ∀ m ∈ l, generalResult? a m = none) (applied : List String) (r : Results ν) :
    applyGeneral recur a applied l r = pure r := by
  induction l with
  | nil => rfl
  | cons m l ih =>
    obtain ⟨hm, hl⟩ := List.forall_mem_cons.1 h
    simp only [applyGeneral, hm, ih hl, ite_self]

theorem evalChildren_pure (l : List (Atom ν)) : evalChildren (fun a => pure [a]) l = pure l := by
  induction l with
  | nil => rfl
  | cons a l ih =>
    calc evalChildren (fun a => pure [a]) (a :: l)
      _ = evalChildren (fun a => pure [a]) l >>= fun l => pure ((if (a == a) = true then a else a) :: l) := rfl
      _ = pure (a :: l) := by rw [ih, ite_self]; rfl

/-- With one level, what an expression reduces to is not evaluated further. -/
theorem eval_one {ev : Evaluator ν} {head : Atom ν} {args : List (Atom ν)} {s : Space ν} {l : List (Atom ν)}
    (h : (reduce (fun a => pure [a]) ev head args
      { space := s, path := [(Atom.expr (head :: args)).key] }).1.atoms = l) :
    (ev.eval (.expr (head :: args)) 1 s).1 = if l.isEmpty then [.expr (head :: args)] else l := by
  have hstep : step (fun a => pure [a]) ev (.expr (head :: args)) { space := s } =
      (do
        let r ← reduce (fun a => pure [a]) ev head args
        let results ←
          if r.atoms.isEmpty then pure [Atom.expr (← evalChildren (fun a => pure [a]) (head :: args))]
          else pure r.atoms
        modify fun st : Evaluation ν => { st with path := st.path.erase (Atom.expr (head :: args)).key }
        return results : Evaluating ν _) { space := s, path := [(Atom.expr (head :: args)).key] } := rfl
  show (step (fun a => pure [a]) ev (.expr (head :: args)) { space := s }).1 = _
  rw [hstep, run_bind, evalChildren_pure]
  subst h
  generalize reduce (fun a => pure [a]) ev head args { space := s, path := [(Atom.expr (head :: args)).key] } = p
  cases p.1.atoms.isEmpty <;> rfl

end

/-! ### The name of the result -/

/-- The rule `(= (f a) b)`. -/
def replies : Atom (Exact fun _ => 1) :=
  .expr [.symbol "=", .expr [.symbol "f", .symbol "a"], .symbol "b"]

/-- A space that holds the rule. -/
def replying : Space (Exact fun _ => 1) :=
  ((Space.empty default).add replies).2

/-- A query under the head `=` finds the rule, or nothing. -/
theorem query_replying {t : Space (Exact fun _ => 1)} (ht : Space.Read replying t) (p q : Atom (Exact fun _ => 1)) :
    (t.query (.expr [.symbol "=", p, q])).1 =
      ((unify (.expr [.symbol "=", p, q]) replies ∅).map fun bindings =>
        { atom := replies, bindings, score := Truth.unknown.score : Match _}).toList := by
  have hcandidates : t.candidates (.expr [.symbol "=", p, q]) = ["(= (f a) b)"] := by
    show t.bucket "=" ++ t.bucket Space.openHead = _
    rw [Space.bucket, Space.bucket, ht.index]
    decide +kernel
  have hroom : 1 ≤ t.config.maxCandidates ∧ 1 ≤ t.config.maxResults := by
    rw [ht.config]
    decide
  have hfact : t.fact? "(= (f a) b)" = some (replies, .unknown) := (ht.fact? _).trans (by rfl)
  have hsound : Scalar.lt (Truth.unknown : Truth (Exact fun _ => 1)).confidence t.config.minConfidence = false := by
    rw [ht.config]
    decide +kernel
  exact Space.query_of_single hcandidates hroom hfact hsound rfl

open Unifier in
/-- The left side of the rule makes the variable of a call the argument. -/
theorem unify_replies {x : String} (hx : x ∈ ["y", "__result"]) :
    unify (.expr [.symbol "=", callOf "f" x, .var "__result"]) replies ∅ =
      run ⟨[(.var x, .symbol "a"), (.var "__result", .symbol "b")], ∅, []⟩ := by
  have hname : x = "y" ∨ x = "__result" := by simpa using hx
  rcases hname with rfl | rfl <;>
  · refine (run_cons rfl).trans ((run_cons rfl).trans ?_)
    refine (run_cons rfl).trans (run_cons rfl)

open Unifier in
/-- A variable of another name does not keep the result from being the right side. -/
theorem resolve_replies : (unify (.expr [.symbol "=", callOf "f" "y", .var "__result"]) replies ∅).bind
    (fun b => b.resolve? "__result") = some (.symbol "b") := by
  let bound : Bindings (Exact fun _ => 1) := (∅ : Bindings _).insert "y" (.symbol "a")
  have hunify := calc unify (.expr [.symbol "=", callOf "f" "y", .var "__result"]) replies ∅
    _ = run ⟨[(.var "y", .symbol "a"), (.var "__result", .symbol "b")], ∅, []⟩ := unify_replies (by simp)
    _ = run ⟨[(.var "__result", .symbol "b")], bound, []⟩ := run_cons rfl
    _ = run ⟨[], bound.insert "__result" (.symbol "b"), []⟩ := run_cons rfl
    _ = some (bound.insert "__result" (.symbol "b")) := run_of_done rfl
  rw [hunify]
  rfl

open Unifier in
/-- A variable called `__result` would have to be the argument and the result. -/
theorem resolve_replies_result :
    (unify (.expr [.symbol "=", callOf "f" "__result", .var "__result"]) replies ∅).bind
      (fun b => b.resolve? "__result") = none := by
  let bound : Bindings (Exact fun _ => 1) := (∅ : Bindings _).insert "__result" (.symbol "a")
  have hunify := calc unify (.expr [.symbol "=", callOf "f" "__result", .var "__result"]) replies ∅
    _ = run ⟨[(.var "__result", .symbol "a"), (.var "__result", .symbol "b")], ∅, []⟩ := unify_replies (by simp)
    _ = run ⟨[(.var "__result", .symbol "b")], bound, []⟩ := run_cons rfl
    _ = none := run_cons_eq_none rfl
  rw [hunify]
  rfl

theorem unify_replies_sides : unify (.expr [.symbol "=", .var "__pattern", .var "__template"]) replies ∅ =
    some (((∅ : Bindings (Exact fun _ => 1)).insert "__pattern" (.expr [.symbol "f", .symbol "a"])).insert
      "__template" (.symbol "b")) := by
  have hcall : Atom.Tidy ∅ (.expr [.symbol "f", .symbol "a"] : Atom (Exact fun _ => 1)) :=
    .call (by decide) (List.forall_mem_singleton.2 (.symbol (by decide)))
  refine unify_sides (Atom.ample_tidy Atom.worded_empty).faithful ?_ ?_ (by decide) (by decide) (by decide)
  · exact Atom.Tidy.triple (by decide) (.var (by decide)) (.var (by decide))
  · exact Atom.Tidy.triple (by decide) hcall (.symbol (by decide))

theorem reduce_replying (x : String) (path : List String) :
    (reduce (fun a => pure [a]) usual (.symbol "f") [.var x] { space := replying, path }).1.atoms =
      ((unify (.expr [.symbol "=", callOf "f" x, .var "__result"]) replies ∅).bind
        fun b => b.resolve? "__result").toList := by
  have hagrees : arityAgrees (.symbol "f") 1 { space := replying, path } = (true, { space := replying, path }) := by
    have hcandidates : replying.candidates (.expr [.symbol ":", .symbol "f", .var "__type"]) = [] := by
      decide +kernel
    have hquery : replying.query (.expr [.symbol ":", .symbol "f", .var "__type"]) = ([], replying) := by
      simp [Space.query, hcandidates, Space.examineAll]
    simp [arityAgrees, declaredName?, run_bind, run_pure, run_ask, hquery]
  have hground := query_replying (.refl replying) (callOf "f" x) (.var "__result")
  have hquiet (applied : List String) (r : Results (Exact fun _ => 1)) :
      applyGeneral (fun a => pure [a]) (callOf "f" x) applied
        ((replying.query (.expr [.symbol "=", callOf "f" x, .var "__result"])).2.query
          (.expr [.symbol "=", .var "__pattern", .var "__template"])).1 r = pure r := by
    refine applyGeneral_of_none ?_ _ _
    rw [query_replying (replying.read_query _), unify_replies_sides]
    exact List.forall_mem_singleton.2 rfl
  have hnative : usual.registry.resolve? (.symbol "f") = none := rfl
  have hroom : ({ limit := max usual.config.maxResults 1 } : Results (Exact fun _ => 1)).isFull = false := rfl
  simp only [reduce, List.length_singleton, run_bind, hagrees, if_true, run_ask]
  change (applyNative _ usual _ _ _ _).1.atoms = _
  rw [show (Atom.expr [.symbol "f", .var x] : Atom (Exact fun _ => 1)) = callOf "f" x from rfl]
  simp only [applyNative, hnative, run_pure, hground]
  cases unify (.expr [.symbol "=", callOf "f" x, .var "__result"]) replies ∅ with
  | none =>
    simp only [Option.map_none, Option.toList_none, applyGround, run_pure, hquiet]
    rfl
  | some b =>
    have hresult : groundResult? { atom := replies, bindings := b, score := Truth.unknown.score : Match _} =
      b.resolve? "__result" := rfl
    simp only [Option.map_some, Option.toList_some, applyGround, hroom, if_neg Bool.false_ne_true,
      Option.bind_some, hresult]
    cases hb : b.resolve? "__result" with
    | none =>
      simp only [run_pure, hquiet]
      rfl
    | some v =>
      simp only [run_bind, run_pure, hquiet]
      rfl

/-- With one level a call becomes what the rule says for it, or stays. -/
theorem eval_replying {x : String} {r : Option (Atom (Exact fun _ => 1))}
    (h : (unify (.expr [.symbol "=", callOf "f" x, .var "__result"]) replies ∅).bind
      (fun b => b.resolve? "__result") = r) :
    (usual.eval (callOf "f" x) 1 replying).1 = [r.getD (callOf "f" x)] := by
  rw [callOf, eval_one ((reduce_replying x _).trans (by rw [h]))]
  cases r <;> rfl

/-- A call whose variable is called `__result` has no result but itself, although the call with another
variable has one: no renumbering makes up for that. -/
theorem eval_sees_result : ¬ ∀ (s : Space (Exact fun _ => 1)) (t : Atom (Exact fun _ => 1)) (depth : Nat)
    (f : String → String), s.Reachable → Set.InjOn f {x | x ∈ t.names} → (∀ x ∉ t.names, f x = x) →
      (∀ x ∈ t.names, '#' ∉ x.toList ∧ '#' ∉ (f x).toList) →
      ∃ g : String → String, (∀ x, '#' ∉ x.toList → g x = x) ∧
        (usual.eval (t.mapNames f) depth s).1 =
          (usual.eval t depth s).1.map fun a => (a.mapNames f).mapNames g := by
  intro h
  have hplain : ∀ x ∈ (callOf "f" "y").names, '#' ∉ x.toList ∧ '#' ∉ (calling "__result" x).toList := by
    intro x hx
    obtain rfl := eq_of_mem_names_callOf hx
    decide
  obtain ⟨g, -, hresults⟩ := h replying (callOf "f" "y") 1 (calling "__result") ⟨default, .single (.add _ _)⟩
    (injOn_callOf _ _ _) (calling_outside _ _) hplain
  have hmoved : (usual.eval (callOf "f" "__result") 1 replying).1 = [callOf "f" "__result"] :=
    eval_replying resolve_replies_result
  have hkept : (usual.eval (callOf "f" "y") 1 replying).1 = [.symbol "b"] :=
    eval_replying resolve_replies
  rw [mapNames_callOf, hmoved, hkept] at hresults
  cases hresults

end Evaluator

end Atomspace
