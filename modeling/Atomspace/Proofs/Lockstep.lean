import Atomspace.Proofs.Naming
/-!
# Evaluation under other names

Two evaluations, one of an atom and one of the atom with other names for its variables, go the same way as
long as their spaces are companions: these answer the renamed patterns of the one as those of the other
(`Companions`). Then both ask for the same rules, take the same branches, and their results differ in the
names only (`Evaluator.eval_companions`), if the code that they run does not look at names (`Native.Keeps`).
The standard code does not (`Registry.keeps_standard`).

A space of which the names take no notice is a companion of itself (`Space.companions_self`,
`Evaluator.eval_mapNames`).
-/

namespace Atomspace

variable {ν : Type} [Scalar ν]

/-! ## Spaces that answer alike -/

namespace Evaluator

omit [Scalar ν] in
/-- The sides of a rule that was found by its pattern. -/
def sides? (m : Match ν) : Option (Atom ν × Atom ν) := do
  return (← m.bindings.resolve? "__pattern", ← m.bindings.resolve? "__template")

/-- The same rule was found, and its sides are in the set and differ in the names only. -/
def Sides (D : Set (Atom ν)) (f : String → String) (m m' : Match ν) : Prop :=
  m'.atom = m.atom ∧ sides? m' = (sides? m).map (Prod.map (Atom.mapNames f) (Atom.mapNames f)) ∧
    ∀ p ∈ sides? m, p.1 ∈ D ∧ p.2 ∈ D

/-- The pattern of all rules. -/
def rulePattern : Atom ν := .expr [.symbol "=", .var "__pattern", .var "__template"]

/-- The pattern of the types that are declared for a name. -/
def typePattern (name : String) : Atom ν := .expr [.symbol ":", .symbol name, .var "__type"]

/-- Of two related spaces the second one answers under other names as the first one does, and they stay
related. -/
structure Companions (D : Set (Atom ν)) (f : String → String) (R : Space ν → Space ν → Prop) : Prop where
  query {s t : Space ν} {p : Atom ν} : R s t → p ∈ D → (∀ m ∈ (s.query p).1, m.bindings.Scoped D) ∧
    (t.query (p.mapNames f)).1 = (s.query p).1.map (Match.mapNames f) ∧
      R (s.query p).2 (t.query (p.mapNames f)).2
  rules {s t : Space ν} : R s t → List.Forall₂ (Sides D f) (s.query rulePattern).1 (t.query rulePattern).1 ∧
    R (s.query rulePattern).2 (t.query rulePattern).2
  types {s t : Space ν} {head : Atom ν} {name : String} : R s t → head ∈ D → declaredName? head = some name →
    (t.query (typePattern name)).1.map arrowArity? = (s.query (typePattern name)).1.map arrowArity? ∧
      R (s.query (typePattern name)).2 (t.query (typePattern name)).2

end Evaluator

open Evaluator (Companions)

/-! ## Native code -/

/-- The code does not look at names: renamed arguments give the renamed result, and the same space. -/
structure Native.Blind (D : Set (Atom ν)) (f : String → String) (code : Native ν) : Prop where
  result {args : List (Atom ν)} {s : Space ν} : (∀ a ∈ args, a ∈ D) → s.Unmoved D f →
    (code (args.map (Atom.mapNames f)) s).1.toOption = (code args s).1.toOption.map (Atom.mapNames f)
  space {args : List (Atom ν)} {s : Space ν} : (∀ a ∈ args, a ∈ D) → s.Unmoved D f →
    (code (args.map (Atom.mapNames f)) s).2 = (code args s).2
  unmoved {args : List (Atom ν)} {s : Space ν} : (∀ a ∈ args, a ∈ D) → s.Unmoved D f →
    (code args s).2.Unmoved D f
  within {args : List (Atom ν)} {s : Space ν} : (∀ a ∈ args, a ∈ D) → s.Unmoved D f →
    ∀ a ∈ (code args s).1.toOption, a ∈ D

/-- No code of the registry looks at names. -/
def Registry.Blind (D : Set (Atom ν)) (f : String → String) (r : Registry ν) : Prop :=
  ∀ head name code, r.resolve? head = some (name, code) → code.Blind D f

/-- In related spaces, renamed arguments give the renamed result, and the spaces stay related. -/
structure Native.Keeps (D : Set (Atom ν)) (f : String → String) (R : Space ν → Space ν → Prop)
    (code : Native ν) : Prop where
  result {args : List (Atom ν)} {s t : Space ν} : (∀ a ∈ args, a ∈ D) → R s t →
    (code (args.map (Atom.mapNames f)) t).1.toOption = (code args s).1.toOption.map (Atom.mapNames f)
  spaces {args : List (Atom ν)} {s t : Space ν} : (∀ a ∈ args, a ∈ D) → R s t →
    R (code args s).2 (code (args.map (Atom.mapNames f)) t).2
  within {args : List (Atom ν)} {s t : Space ν} : (∀ a ∈ args, a ∈ D) → R s t →
    ∀ a ∈ (code args s).1.toOption, a ∈ D

/-- All code of the registry does so. -/
def Registry.Keeps (D : Set (Atom ν)) (f : String → String) (R : Space ν → Space ν → Prop) (r : Registry ν) :
    Prop :=
  ∀ head name code, r.resolve? head = some (name, code) → code.Keeps D f R

theorem Atom.number?_mapNames (f : String → String) (a : Atom ν) : (a.mapNames f).number? = a.number? := by
  cases a <;> rfl

omit [Scalar ν] in
theorem Registry.resolve?_mapNames (r : Registry ν) (f : String → String) (head : Atom ν) :
    r.resolve? (head.mapNames f) = r.resolve? head := by
  cases head <;> rfl

/-! ## Standard code -/

/-- What the standard code makes of atoms of the set is in the set. -/
structure Native.Closed (D : Set (Atom ν)) : Prop where
  truth : ∀ b, truthAtom b ∈ D
  list {l : List (Atom ν)} : (∀ a ∈ l, a ∈ D) → .list l ∈ D
  int {n : Int64} : .int n ∈ D → ∀ m : Int64, .int m ∈ D
  float {x : ν} : .float x ∈ D → ∀ y : ν, .float y ∈ D

/-- The operations of the standard arithmetic. -/
def Native.realOperations : List (ν → ν → ν) := [(· + ·), (· - ·), (· * ·), (· / ·)]

/-- What the standard code makes of atoms of the set is in the set. Of numbers that are not whole only those
count that arithmetic may give. -/
structure Native.Sealed (D : Set (Atom ν)) : Prop where
  truth : ∀ b, truthAtom b ∈ D
  list {l : List (Atom ν)} : (∀ a ∈ l, a ∈ D) → .list l ∈ D
  int {n : Int64} : .int n ∈ D → ∀ m : Int64, .int m ∈ D
  float {x : ν} : .float x ∈ D → ∀ op ∈ realOperations, ∀ y z : ν, Scalar.isFinite (op y z) = true →
    .float (op y z) ∈ D

theorem Native.Closed.sealed {D : Set (Atom ν)} (h : Closed D) : Sealed D where
  truth := h.truth
  list := h.list
  int := h.int
  float hx _ _ _ _ _ := h.float hx _

namespace Native

variable {D : Set (Atom ν)} {f : String → String} {R : Space ν → Space ν → Prop}

omit [Scalar ν] in
theorem toOption_bind {ε α β : Type} (x : Except ε α) (k : α → Except ε β) :
    (x >>= k).toOption = x.toOption.bind fun a => (k a).toOption := by
  cases x <;> rfl

omit [Scalar ν] in
theorem eq_ok_of_mem {ε α : Type} {x : Except ε α} {a : α} (h : a ∈ x.toOption) : x = .ok a := by
  cases x <;> cases h
  rfl

omit [Scalar ν] in
theorem keeps_pure {code : List (Atom ν) → Except (NativeError ν) (Atom ν)}
    (hsame : ∀ args, (∀ a ∈ args, a ∈ D) →
      (code (args.map (Atom.mapNames f))).toOption = (code args).toOption.map (Atom.mapNames f))
    (hmem : ∀ args, (∀ a ∈ args, a ∈ D) → ∀ a ∈ (code args).toOption, a ∈ D) :
    (Native.pure code).Keeps D f R where
  result hargs _ := hsame _ hargs
  spaces _ h := h
  within hargs _ := hmem _ hargs

omit [Scalar ν] in
theorem operand_mapNames (f : String → String) (a : Atom ν) :
    (operand (a.mapNames f)).toOption = (operand a).toOption := by
  cases a <;> rfl

omit [Scalar ν] in
theorem operands_mapNames (f : String → String) (name : String) (args : List (Atom ν)) :
    (operands name (args.map (Atom.mapNames f))).toOption = (operands name args).toOption := by
  match args with
  | [a, b] =>
    show (operands name [a.mapNames f, b.mapNames f]).toOption = _
    simp only [operands, toOption_bind, operand_mapNames]
  | [] => rfl
  | [_] => rfl
  | _ :: _ :: _ :: _ => rfl

omit [Scalar ν] in
/-- The operands are among the arguments. -/
theorem mem_of_operands {name : String} {args : List (Atom ν)} {x y : Operand ν}
    (h : operands name args = .ok (x, y)) : ∃ a b, args = [a, b] ∧ operand a = .ok x ∧ operand b = .ok y := by
  match args with
  | [a, b] =>
    refine ⟨a, b, rfl, ?_⟩
    cases ha : operand a <;> cases hb : operand b <;>
      simp [operands, ha, hb, bind, Except.bind, Pure.pure, Except.pure] at h
    exact ⟨congrArg _ h.1, congrArg _ h.2⟩
  | [] => cases h
  | [_] => cases h
  | _ :: _ :: _ :: _ => cases h

omit [Scalar ν] in
theorem operand_cases {a : Atom ν} {x : Operand ν} (h : operand a = .ok x) :
    (∃ n, a = .int n ∧ x = .whole n) ∨ ∃ y, a = .float y ∧ x = .real y := by
  cases a <;> cases h
  · exact .inl ⟨_, rfl, rfl⟩
  · exact .inr ⟨_, rfl, rfl⟩

/-- What two numbers are combined to is a number, of the sort of one of them. -/
theorem mem_of_arithmetic {name : String} {onInts : Int → Int → Option Int} {onReals : ν → ν → ν}
    (hD : Sealed D) (hop : onReals ∈ realOperations) {args : List (Atom ν)} (hargs : ∀ a ∈ args, a ∈ D)
    {s : Space ν} {a : Atom ν} (h : (arithmetic name onInts onReals args s).1 = .ok a) : a ∈ D := by
  have hfinite {y z : ν} (hz : ∃ x : ν, .float x ∈ D)
      (h : (if Scalar.isFinite (onReals y z) then .ok (.float (onReals y z)) else .error (.notFinite name) :
        Except (NativeError ν) (Atom ν)) = .ok a) : a ∈ D := by
    obtain ⟨x, hx⟩ := hz
    split at h <;> cases h
    exact hD.float hx onReals hop y z ‹_›
  unfold arithmetic Native.pure at h
  dsimp only at h
  cases hoperands : operands name args with
  | error =>
    rw [hoperands] at h
    cases h
  | ok e =>
    obtain ⟨x, y⟩ := e
    rw [hoperands] at h
    obtain ⟨b, c, rfl, hb, hc⟩ := mem_of_operands hoperands
    obtain ⟨hbD, hcD⟩ : b ∈ D ∧ c ∈ D := by simpa using hargs
    rcases operand_cases hb with ⟨m, rfl, rfl⟩ | ⟨u, rfl, rfl⟩
    · rcases operand_cases hc with ⟨n, rfl, rfl⟩ | ⟨v, rfl, rfl⟩
      · dsimp only [bind, Except.bind] at h
        split at h <;> cases h
        exact hD.int hbD _
      · exact hfinite ⟨v, hcD⟩ h
    · rcases operand_cases hc with ⟨n, rfl, rfl⟩ | ⟨v, rfl, rfl⟩
      · exact hfinite ⟨u, hbD⟩ h
      · exact hfinite ⟨u, hbD⟩ h

theorem keeps_arithmetic (hD : Sealed D) (name : String) (onInts : Int → Int → Option Int) {onReals : ν → ν → ν}
    (hop : onReals ∈ realOperations) : (arithmetic name onInts onReals).Keeps D f R := by
  refine keeps_pure (fun args _ => ?_) fun args hargs a ha => ?_
  · simp only [toOption_bind, operands_mapNames]
    cases (operands name args).toOption with
    | none => rfl
    | some e =>
      obtain ⟨x, y⟩ := e
      cases x <;> cases y <;> simp only [Option.bind_some] <;> split <;> rfl
  · have hresult : (arithmetic name onInts onReals args default).1 = .ok a := eq_ok_of_mem ha
    exact mem_of_arithmetic hD hop hargs hresult

theorem keeps_comparison (hD : Sealed D) (name : String) (holds : ν → ν → Bool) :
    (comparison name holds).Keeps D f R := by
  refine keeps_pure (fun args _ => ?_) fun args _ a ha => ?_
  · simp only [toOption_bind, operands_mapNames]
    cases (operands name args).toOption <;> rfl
  · rw [toOption_bind] at ha
    obtain ⟨e, -, ha⟩ := Option.bind_eq_some_iff.1 ha
    cases ha
    exact hD.truth _

theorem keeps_equality (hf : Atom.Naming D f) (hD : Sealed D) : (equality : Native ν).Keeps D f R := by
  refine keeps_pure (fun args hargs => ?_) fun args _ a ha => ?_
  · match args with
    | [a, b] =>
      obtain ⟨ha, hb⟩ : a ∈ D ∧ b ∈ D := by simpa using hargs
      have hequal : equal (a.mapNames f) (b.mapNames f) = equal a b := by
        unfold equal
        rw [Atom.number?_mapNames, Atom.number?_mapNames, hf.beq ha hb]
      show some (truthAtom (equal (a.mapNames f) (b.mapNames f))) = _
      rw [hequal]
      rfl
    | [] => rfl
    | [_] => rfl
    | _ :: _ :: _ :: _ => rfl
  · match args with
    | [b, c] =>
      cases ha
      exact hD.truth _
    | [] => cases ha
    | [_] => cases ha
    | _ :: _ :: _ :: _ => cases ha

/-- Only three arguments of which the first names the space lead to a query. -/
theorem matchSpace_cases (f : String → String) (args : List (Atom ν)) :
    (∃ source p template, args = [source, p, template] ∧ source.symbol? = some "&self") ∨
      ∀ s t : Space ν, ∃ e e', matchSpace args s = (.error e, s) ∧
        matchSpace (args.map (Atom.mapNames f)) t = (.error e', t) := by
  match args with
  | [source, p, template] =>
    by_cases hsource : source.symbol? = some "&self"
    · exact .inl ⟨source, p, template, rfl, hsource⟩
    · have hsource' : (source.mapNames f).symbol? ≠ some "&self" := by
        cases source <;> exact hsource
      exact .inr fun s t => ⟨_, _, if_neg hsource, if_neg hsource'⟩
  | [] => exact .inr fun s t => ⟨_, _, rfl, rfl⟩
  | [_] => exact .inr fun s t => ⟨_, _, rfl, rfl⟩
  | [_, _] => exact .inr fun s t => ⟨_, _, rfl, rfl⟩
  | _ :: _ :: _ :: _ :: _ => exact .inr fun s t => ⟨_, _, rfl, rfl⟩

theorem matchSpace_of_self {source : Atom ν} (hsource : source.symbol? = some "&self") (p template : Atom ν)
    (s : Space ν) : matchSpace [source, p, template] s =
      (.ok (.list ((s.query p).1.map fun m => m.bindings.subst template)), (s.query p).2) :=
  if_pos hsource

theorem keeps_matchSpace (hf : Atom.Naming D f) (hD : Sealed D) (hR : Companions D f R) :
    (matchSpace : Native ν).Keeps D f R := by
  have hself {source p template : Atom ν} (hsource : source.symbol? = some "&self") (t : Space ν) :
      matchSpace ([source, p, template].map (Atom.mapNames f)) t =
        (.ok (.list ((t.query (p.mapNames f)).1.map fun m => m.bindings.subst (template.mapNames f))),
          (t.query (p.mapNames f)).2) :=
    matchSpace_of_self (by cases source <;> exact hsource) _ _ _
  have hmem {source p template : Atom ν} (hargs : ∀ a ∈ [source, p, template], a ∈ D) : p ∈ D ∧ template ∈ D :=
    ⟨hargs p (by simp), hargs template (by simp)⟩
  refine ⟨fun {args s t} hargs hst => ?_, fun {args s t} hargs hst => ?_, fun {args s t} hargs hst a ha => ?_⟩ <;>
  rcases matchSpace_cases f args with ⟨source, p, template, rfl, hsource⟩ | herror
  · obtain ⟨hp, htemplate⟩ := hmem hargs
    obtain ⟨hscoped, hfound, -⟩ := hR.query hst hp
    rw [matchSpace_of_self hsource, hself hsource, hfound, List.map_map]
    show some _ = some ((Atom.list _).mapNames f)
    rw [Atom.mapNames_list, List.map_map]
    refine congrArg (fun l => some (Atom.list l)) (List.map_congr_left fun m hm => ?_)
    exact Bindings.subst_mapNames hf.inj hf.faithful (hscoped m hm) htemplate
  · obtain ⟨_, _, herror, herror'⟩ := herror s t
    rw [herror, herror']
    rfl
  · obtain ⟨hp, htemplate⟩ := hmem hargs
    rw [matchSpace_of_self hsource, hself hsource]
    exact (hR.query hst hp).2.2
  · obtain ⟨_, _, herror, herror'⟩ := herror s t
    rw [herror, herror']
    exact hst
  · obtain ⟨hp, htemplate⟩ := hmem hargs
    rw [matchSpace_of_self hsource] at ha
    cases ha
    refine hD.list fun b hb => ?_
    obtain ⟨m, hm, rfl⟩ := List.mem_map.1 hb
    exact ((hR.query hst hp).1 m hm).within.subst_mem hf.faithful htemplate
  · obtain ⟨_, _, herror, -⟩ := herror s t
    rw [herror] at ha
    cases ha

theorem keeps_standard (hf : Atom.Naming D f) (hD : Sealed D) (hR : Companions D f R) :
    ∀ e ∈ (standard : List (String × Native ν)), e.2.Keeps D f R := by
  simp only [standard, List.forall_mem_cons, List.not_mem_nil, false_implies, implies_true, and_true]
  exact ⟨keeps_arithmetic hD _ _ (by simp [realOperations]), keeps_arithmetic hD _ _ (by simp [realOperations]),
    keeps_arithmetic hD _ _ (by simp [realOperations]), keeps_arithmetic hD _ _ (by simp [realOperations]),
    keeps_comparison hD _ _, keeps_comparison hD _ _, keeps_comparison hD _ _, keeps_comparison hD _ _,
    keeps_equality hf hD, keeps_matchSpace hf hD hR⟩

end Native

/-- The standard code does not look at names. -/
theorem Registry.keeps_standard {D : Set (Atom ν)} {f : String → String} {R : Space ν → Space ν → Prop}
    (hf : Atom.Naming D f) (hD : Native.Sealed D) (hR : Companions D f R) :
    (Registry.standard : Registry ν).Keeps D f R :=
  forall_standard (Native.keeps_standard hf hD hR)

/-! ## Results -/

/-- The second list is the first one, of atoms of the set, with other names. -/
def Renamed (D : Set (Atom ν)) (f : String → String) (l l' : List (Atom ν)) : Prop :=
  (∀ a ∈ l, a ∈ D) ∧ l' = l.map (Atom.mapNames f)

namespace Results

variable {D : Set (Atom ν)} {f : String → String}

/-- The results with other names. -/
def mapNames (f : String → String) (r : Results ν) : Results ν :=
  { r with atoms := r.atoms.map (Atom.mapNames f) }

omit [Scalar ν] in
theorem isFull_mapNames (f : String → String) (r : Results ν) : (r.mapNames f).isFull = r.isFull := by
  simp [isFull, mapNames]

theorem push_mapNames (hf : Atom.Naming D f) {r : Results ν} (hr : ∀ a ∈ r.atoms, a ∈ D) {a : Atom ν} (ha : a ∈ D) :
    (r.mapNames f).push (a.mapNames f) = (r.push a).mapNames f := by
  have hany : ((r.mapNames f).atoms.any fun b => b.key == (a.mapNames f).key) =
      r.atoms.any fun b => b.key == a.key := by
    rw [mapNames, List.any_map]
    rw [Bool.eq_iff_iff, List.any_eq_true, List.any_eq_true]
    refine exists_congr fun b => and_congr_right fun hb => ?_
    rw [Function.comp_apply, hf.beq_key (hr b hb) ha]
  unfold push
  rw [isFull_mapNames, hany]
  split
  · rfl
  · simp [mapNames]

theorem extend_mapNames (hf : Atom.Naming D f) {l : List (Atom ν)} (hl : ∀ a ∈ l, a ∈ D) :
    ∀ {r : Results ν}, (∀ a ∈ r.atoms, a ∈ D) →
      (r.mapNames f).extend (l.map (Atom.mapNames f)) = (r.extend l).mapNames f := by
  induction l with
  | nil => exact fun _ => rfl
  | cons a l ih =>
    intro r hr
    obtain ⟨ha, hl⟩ := List.forall_mem_cons.1 hl
    have hpush : ∀ b ∈ (r.push a).atoms, b ∈ D := fun b hb =>
      (mem_extend (l := [a]) hb).elim (hr b) fun hb => by rwa [List.mem_singleton.1 hb]
    show ((r.mapNames f).push (a.mapNames f)).extend (l.map (Atom.mapNames f)) = _
    rw [push_mapNames hf hr ha, ih hl hpush]
    rfl

theorem extend_within {r : Results ν} {l : List (Atom ν)} (hr : ∀ a ∈ r.atoms, a ∈ D) (hl : ∀ a ∈ l, a ∈ D) :
    ∀ a ∈ (r.extend l).atoms, a ∈ D :=
  fun a ha => (mem_extend ha).elim (hr a) (hl a)

end Results

namespace Evaluator

variable {D : Set (Atom ν)} {f : String → String} {R : Space ν → Space ν → Prop}

/-! ## Two evaluations side by side -/

/-- The states of two evaluations of which the second has other names. -/
structure Paired (D : Set (Atom ν)) (f : String → String) (R : Space ν → Space ν → Prop)
    (e e' : Evaluation ν) : Prop where
  spaces : R e.space e'.space
  path : ∃ l : List (Atom ν), (∀ a ∈ l, a ∈ D) ∧ e.path = l.map Atom.key ∧
    e'.path = l.map fun a => (a.mapNames f).key

/-- From paired states two computations come to paired states, with answers that are related. -/
def Parallel {α : Type} (D : Set (Atom ν)) (f : String → String) (R : Space ν → Space ν → Prop)
    (m m' : Evaluating ν α) (P : α → α → Prop) : Prop :=
  ∀ e e', Paired D f R e e' → P (m e).1 (m' e').1 ∧ Paired D f R (m e).2 (m' e').2

section
variable {α β : Type} {P : α → α → Prop} {Q : β → β → Prop}

theorem Parallel.pure {a a' : α} (h : P a a') : Parallel D f R (pure a) (pure a') P :=
  fun _ _ he => ⟨h, he⟩

theorem Parallel.bind {m m' : Evaluating ν α} {k k' : α → Evaluating ν β} (hm : Parallel D f R m m' P)
    (hk : ∀ a a', P a a' → Parallel D f R (k a) (k' a') Q) : Parallel D f R (m >>= k) (m' >>= k') Q := by
  intro e e' he
  obtain ⟨hanswer, hstate⟩ := hm e e' he
  exact hk _ _ hanswer _ _ hstate

end

/-- A query for a pattern and for the renamed pattern. -/
theorem parallel_ask (hR : Companions D f R) {p : Atom ν} (hp : p ∈ D) :
    Parallel D f R (ask p) (ask (p.mapNames f)) fun found found' =>
      (∀ m ∈ found, m.bindings.Scoped D) ∧ found' = found.map (Match.mapNames f) := by
  intro e e' he
  obtain ⟨hscoped, hfound, hspaces⟩ := hR.query he.spaces hp
  exact ⟨⟨hscoped, hfound⟩, ⟨hspaces, he.path⟩⟩

theorem parallel_ask_types (hR : Companions D f R) {head : Atom ν} (hhead : head ∈ D) {name : String}
    (hname : declaredName? head = some name) : Parallel D f R (ask (typePattern name)) (ask (typePattern name))
      fun found found' => found'.map arrowArity? = found.map arrowArity? := by
  intro e e' he
  obtain ⟨hfound, hspaces⟩ := hR.types he.spaces hhead hname
  exact ⟨hfound, ⟨hspaces, he.path⟩⟩

theorem parallel_arityAgrees (hR : Companions D f R) {head : Atom ν} (hhead : head ∈ D) (count : Nat) :
    Parallel D f R (arityAgrees head count) (arityAgrees (head.mapNames f) count) (· = ·) := by
  have hname : declaredName? (head.mapNames f) = declaredName? head := by cases head <;> rfl
  have hfirst (l : List (Match ν)) : l.findSome? arrowArity? = (l.map arrowArity?).findSome? id :=
    (List.findSome?_map (f := arrowArity?) (p := id)).symm
  unfold arityAgrees
  rw [hname]
  split
  · exact .pure rfl
  · rename_i hdeclared
    refine (parallel_ask_types hR hhead hdeclared).bind fun found found' hfound => .pure ?_
    rw [hfirst, hfirst, hfound]

/-! ## Rules -/

theorem groundResult?_mapNames (hf : Atom.Naming D f) {m : Match ν} (hm : m.bindings.Scoped D) :
    groundResult? (m.mapNames f) = (groundResult? m).map (Atom.mapNames f) ∧ ∀ a ∈ groundResult? m, a ∈ D := by
  have hresolve := Bindings.resolve?_mapNames hf.inj hf.faithful hm hf.result
  rw [hf.result_eq] at hresolve
  unfold groundResult? Match.mapNames
  split
  · exact ⟨rfl, nofun⟩
  · exact ⟨hresolve, fun a ha => hm.resolve?_mem hf.faithful ha⟩

theorem parallel_ask_rules (hR : Companions D f R) :
    Parallel D f R (ask rulePattern) (ask rulePattern) (List.Forall₂ (Sides D f)) := by
  intro e e' he
  obtain ⟨hfound, hspaces⟩ := hR.rules he.spaces
  exact ⟨hfound, ⟨hspaces, he.path⟩⟩

/-- What a rule with the given sides reduces an atom to. -/
theorem generalResult?_eq (a : Atom ν) (m : Match ν) : generalResult? a m = (sides? m).bind fun p =>
    (if p.1.hasVars then unify p.1 a ∅ else none).map fun b => b.subst p.2 := by
  unfold generalResult? sides?
  cases m.bindings.resolve? "__pattern" with
  | none => rfl
  | some left =>
    cases m.bindings.resolve? "__template" with
    | none => rfl
    | some template =>
      simp only [Option.bind_eq_bind, Option.bind_some, Option.pure_def]
      split
      · cases unify left a ∅ <;> rfl
      · rfl

theorem generalResult?_mapNames (hf : Atom.Naming D f) {a : Atom ν} (ha : a ∈ D) {m m' : Match ν}
    (hm : Sides D f m m') : generalResult? (a.mapNames f) m' = (generalResult? a m).map (Atom.mapNames f) ∧
      ∀ b ∈ generalResult? a m, b ∈ D := by
  obtain ⟨-, hsides, hmem⟩ := hm
  rw [generalResult?_eq, generalResult?_eq, hsides]
  cases h : sides? m with
  | none => exact ⟨rfl, nofun⟩
  | some p =>
    obtain ⟨left, template⟩ := p
    obtain ⟨hleft, htemplate⟩ := hmem (left, template) h
    have hvars : (left.mapNames f).hasVars = left.hasVars := by
      rw [Bool.eq_iff_iff, ← not_iff_not, Bool.not_eq_true, Bool.not_eq_true, Atom.hasVars_eq_false_iff,
        Atom.hasVars_eq_false_iff, Atom.vars_mapNames, List.map_eq_nil_iff]
    simp only [Option.map_some, Option.bind_some, Prod.map_apply, hvars]
    split
    · rw [unify_mapNames hf hleft ha]
      cases hb : unify left a ∅ with
      | none => exact ⟨rfl, nofun⟩
      | some b =>
        have hb := scoped_of_unify hf.faithful hleft ha hb
        refine ⟨congrArg some (Bindings.subst_mapNames hf.inj hf.faithful hb htemplate), ?_⟩
        rintro _ ⟨⟩
        exact hb.within.subst_mem hf.faithful htemplate
    · exact ⟨rfl, nofun⟩

/-! ## Steps of an evaluation -/

/-- Results of atoms of the set, and the same with other names. -/
def Matching (D : Set (Atom ν)) (f : String → String) (r r' : Results ν) : Prop :=
  (∀ a ∈ r.atoms, a ∈ D) ∧ r' = r.mapNames f

theorem Matching.extend (hf : Atom.Naming D f) {r r' : Results ν} (hr : Matching D f r r') {l l' : List (Atom ν)}
    (hl : Renamed D f l l') : Matching D f (r.extend l) (r'.extend l') := by
  obtain ⟨hrD, rfl⟩ := hr
  obtain ⟨hlD, rfl⟩ := hl
  exact ⟨Results.extend_within hrD hlD, Results.extend_mapNames hf hlD hrD⟩

/-- Evaluation one level deeper does not depend on names. -/
def Equivariant (D : Set (Atom ν)) (f : String → String) (R : Space ν → Space ν → Prop)
    (recur : Atom ν → Evaluating ν (List (Atom ν))) : Prop :=
  ∀ a ∈ D, Parallel D f R (recur a) (recur (a.mapNames f)) (Renamed D f)

section
variable (hf : Atom.Naming D f) {recur : Atom ν → Evaluating ν (List (Atom ν))} (hrec : Equivariant D f R recur)
include hf hrec

theorem parallel_applyGround {l : List (Match ν)} (hl : ∀ m ∈ l, m.bindings.Scoped D) :
    ∀ {r r' : Results ν}, Matching D f r r' →
      Parallel D f R (applyGround recur l r) (applyGround recur (l.map (Match.mapNames f)) r')
        fun x x' => x'.1 = x.1 ∧ Matching D f x.2 x'.2 := by
  induction l with
  | nil => exact fun hr => .pure ⟨rfl, hr⟩
  | cons m l ih =>
    rintro r _ ⟨hrD, rfl⟩
    have hr : Matching D f r (r.mapNames f) := ⟨hrD, rfl⟩
    obtain ⟨hm, hl⟩ := List.forall_mem_cons.1 hl
    obtain ⟨hresult, hresultD⟩ := groundResult?_mapNames hf hm
    rw [List.map_cons]
    unfold applyGround
    rw [Results.isFull_mapNames, hresult]
    split
    · exact .pure ⟨rfl, hr⟩
    · cases hv : groundResult? m with
      | none => exact ih hl hr
      | some v =>
        refine (hrec v (hresultD v hv)).bind fun found found' hfound => ?_
        refine (ih hl (hr.extend hf hfound)).bind ?_
        rintro ⟨applied, r₁⟩ ⟨_, r₂⟩ ⟨rfl, hr⟩
        exact .pure ⟨rfl, hr⟩

theorem parallel_applyGeneral {a : Atom ν} (ha : a ∈ D) (applied : List String) {l l' : List (Match ν)}
    (hl : List.Forall₂ (Sides D f) l l') : ∀ {r r' : Results ν}, Matching D f r r' →
      Parallel D f R (applyGeneral recur a applied l r) (applyGeneral recur (a.mapNames f) applied l' r')
        (Matching D f) := by
  induction hl with
  | nil => exact fun hr => .pure hr
  | @cons m m' l l' hm _ ih =>
    rintro r _ ⟨hrD, rfl⟩
    have hr : Matching D f r (r.mapNames f) := ⟨hrD, rfl⟩
    obtain ⟨hresult, hresultD⟩ := generalResult?_mapNames hf ha hm
    unfold applyGeneral
    rw [Results.isFull_mapNames, hresult, hm.1]
    split
    · exact .pure hr
    · split
      · exact ih hr
      · cases hv : generalResult? a m with
        | none => exact ih hr
        | some v =>
          exact (hrec v (hresultD v hv)).bind fun found found' hfound => ih (hr.extend hf hfound)

omit hf in
theorem parallel_argumentValues {l : List (Atom ν)} (hl : ∀ a ∈ l, a ∈ D) :
    Parallel D f R (argumentValues recur l) (argumentValues recur (l.map (Atom.mapNames f))) fun values values' =>
      (∀ l ∈ values, ∀ a ∈ l, a ∈ D) ∧ values' = values.map (List.map (Atom.mapNames f)) := by
  induction l with
  | nil => exact .pure ⟨by rintro _ ⟨⟩; exact nofun, rfl⟩
  | cons a l ih =>
    obtain ⟨ha, hl⟩ := List.forall_mem_cons.1 hl
    rw [List.map_cons]
    unfold argumentValues
    refine (hrec a ha).bind ?_
    rintro found _ ⟨hfound, rfl⟩
    have hnone : ∀ l ∈ (none : Option (List (Atom ν))), ∀ a ∈ l, a ∈ D := by simp
    rcases found with _ | ⟨value, _ | ⟨_, _⟩⟩
    · exact .pure ⟨hnone, rfl⟩
    · refine (ih hl).bind ?_
      rintro values _ ⟨hvalues, rfl⟩
      cases values with
      | none => exact .pure ⟨hnone, rfl⟩
      | some values =>
        refine .pure ⟨?_, rfl⟩
        rintro _ ⟨⟩
        exact List.forall_mem_cons.2 ⟨hfound value List.mem_cons_self, hvalues values rfl⟩
    · exact .pure ⟨hnone, rfl⟩

omit hf hrec in
theorem parallel_call {code : Native ν} (hcode : code.Keeps D f R) {args : List (Atom ν)}
    (hargs : ∀ a ∈ args, a ∈ D) :
    Parallel D f R (call code args) (call code (args.map (Atom.mapNames f))) fun result result' =>
      (∀ a ∈ result.toOption, a ∈ D) ∧ result'.toOption = result.toOption.map (Atom.mapNames f) := by
  intro e e' he
  exact ⟨⟨hcode.within hargs he.spaces, hcode.result hargs he.spaces⟩, ⟨hcode.spaces hargs he.spaces, he.path⟩⟩

variable {ev : Evaluator ν} (hregistry : ev.registry.Keeps D f R)
include hregistry

theorem parallel_applyNative {head : Atom ν} {args : List (Atom ν)} (hargs : ∀ a ∈ args, a ∈ D) {r r' : Results ν}
    (hr : Matching D f r r') : Parallel D f R (applyNative recur ev head args r)
      (applyNative recur ev (head.mapNames f) (args.map (Atom.mapNames f)) r') (Matching D f) := by
  unfold applyNative
  rw [Registry.resolve?_mapNames]
  split
  · exact .pure hr
  · rename_i name code hcode
    refine (parallel_argumentValues hrec hargs).bind ?_
    rintro values _ ⟨hvalues, rfl⟩
    cases values with
    | none => exact .pure hr
    | some values =>
      refine (parallel_call (hregistry head name code hcode) (hvalues values rfl)).bind ?_
      rintro result result' ⟨hresult, hresult'⟩
      cases result with
      | error =>
        cases result' with
        | error => exact .pure hr
        | ok => cases hresult'
      | ok b =>
        cases result' with
        | error => cases hresult'
        | ok c =>
          obtain rfl : c = b.mapNames f := Option.some.inj hresult'
          exact (hrec b (hresult b rfl)).bind fun found found' hfound => .pure (hr.extend hf hfound)

theorem parallel_reduce (hR : Companions D f R) {head : Atom ν} {args : List (Atom ν)} (ha : .expr (head :: args) ∈ D) :
    Parallel D f R (reduce recur ev head args)
      (reduce recur ev (head.mapNames f) (args.map (Atom.mapNames f))) (Matching D f) := by
  have hargs : ∀ a ∈ args, a ∈ D := fun a hmem => hf.faithful.part ha (List.mem_cons_of_mem _ hmem)
  have hstart : Matching D f ({ limit := max ev.config.maxResults 1 } : Results ν)
      { limit := max ev.config.maxResults 1 } := ⟨nofun, rfl⟩
  have hground := parallel_ask hR (p := .expr [.symbol "=", .expr (head :: args), .var "__result"])
    (hf.expr (by simp [hf.equals, ha, hf.result]))
  simp only [Atom.mapNames_expr, List.map_cons, List.map_nil, Atom.mapNames_symbol, Atom.mapNames_var,
    hf.result_eq] at hground
  unfold reduce
  rw [List.length_map]
  refine (parallel_arityAgrees hR (hf.faithful.part ha List.mem_cons_self) args.length).bind ?_
  rintro agrees _ rfl
  cases agrees with
  | false => exact .pure hstart
  | true =>
    refine hground.bind ?_
    rintro ground _ ⟨hscoped, rfl⟩
    refine (parallel_applyGround hf hrec hscoped hstart).bind ?_
    rintro ⟨applied, r⟩ ⟨applied', r'⟩ ⟨happlied, hr⟩
    obtain rfl : applied' = applied := happlied
    refine (parallel_ask_rules hR).bind fun general general' hgeneral => ?_
    refine Parallel.bind (P := Matching D f) ?_ fun r r' hr => parallel_applyNative hf hrec hregistry hargs hr
    have happly := parallel_applyGeneral hf hrec ha applied' hgeneral hr
    rwa [Atom.mapNames_expr, List.map_cons] at happly

omit hregistry in
theorem parallel_evalChildren {l : List (Atom ν)} (hl : ∀ a ∈ l, a ∈ D) :
    Parallel D f R (evalChildren recur l) (evalChildren recur (l.map (Atom.mapNames f))) (Renamed D f) := by
  induction l with
  | nil => exact .pure ⟨nofun, rfl⟩
  | cons a l ih =>
    obtain ⟨ha, hl⟩ := List.forall_mem_cons.1 hl
    rw [List.map_cons]
    unfold evalChildren
    refine (hrec a ha).bind ?_
    rintro found _ ⟨hfound, rfl⟩
    have hchild {b : Atom ν} (hb : b ∈ D) {c : Atom ν} (hc : c = b.mapNames f) :
        Parallel D f R (do return b :: (← evalChildren recur l))
          (do return c :: (← evalChildren recur (l.map (Atom.mapNames f)))) (Renamed D f) := by
      refine (ih hl).bind ?_
      rintro rest _ ⟨hrest, rfl⟩
      exact .pure ⟨List.forall_mem_cons.2 ⟨hb, hrest⟩, by rw [hc, List.map_cons]⟩
    rcases found with _ | ⟨value, _ | ⟨_, _⟩⟩
    · exact hchild ha rfl
    · have hvalue := hfound value List.mem_cons_self
      refine hchild (b := if value == a then a else value)
        (c := if value.mapNames f == a.mapNames f then a.mapNames f else value.mapNames f)
        (by split <;> assumption) ?_
      rw [hf.beq hvalue ha]
      split <;> rfl
    · exact hchild ha rfl

end

/-! ## Evaluation -/

theorem Paired.contains (hf : Atom.Naming D f) {e e' : Evaluation ν} (he : Paired D f R e e') {a : Atom ν}
    (ha : a ∈ D) :
    e'.path.contains (a.mapNames f).key = e.path.contains a.key := by
  obtain ⟨l, hl, hpath, hpath'⟩ := he.path
  rw [hpath, hpath', Bool.eq_iff_iff, List.contains_iff_mem, List.contains_iff_mem, List.mem_map, List.mem_map]
  exact exists_congr fun b => and_congr_right fun hb => hf.key_iff (hl b hb) ha

theorem parallel_enter {a : Atom ν} (ha : a ∈ D) :
    Parallel D f R (modify fun st : Evaluation ν => { st with path := a.key :: st.path })
      (modify fun st : Evaluation ν => { st with path := (a.mapNames f).key :: st.path }) fun _ _ => True := by
  intro e e' he
  obtain ⟨l, hl, hpath, hpath'⟩ := he.path
  refine ⟨trivial, he.spaces, a :: l, List.forall_mem_cons.2 ⟨ha, hl⟩, ?_, ?_⟩
  · exact congrArg (a.key :: ·) hpath
  · exact congrArg ((a.mapNames f).key :: ·) hpath'

theorem erase_map {g : Atom ν → String} {a : Atom ν} {l : List (Atom ν)}
    (hl : ∀ b ∈ l, (g b == g a) = (b.key == a.key)) :
    (l.map g).erase (g a) = (l.eraseP fun b => b.key == a.key).map g := by
  induction l with
  | nil => rfl
  | cons b l ih =>
    obtain ⟨hb, hl⟩ := List.forall_mem_cons.1 hl
    rw [List.map_cons, List.erase_cons, List.eraseP_cons, hb, ih hl]
    cases b.key == a.key <;> rfl

theorem parallel_leave (hf : Atom.Naming D f) {a : Atom ν} (ha : a ∈ D) :
    Parallel D f R (modify fun st : Evaluation ν => { st with path := st.path.erase a.key })
      (modify fun st : Evaluation ν => { st with path := st.path.erase (a.mapNames f).key }) fun _ _ => True := by
  intro e e' he
  obtain ⟨l, hl, hpath, hpath'⟩ := he.path
  refine ⟨trivial, he.spaces, l.eraseP fun b => b.key == a.key,
    fun b hb => hl b (List.mem_of_mem_eraseP hb), ?_, ?_⟩
  · show e.path.erase a.key = _
    rw [hpath]
    exact erase_map (g := Atom.key) fun _ _ => rfl
  · show e'.path.erase (a.mapNames f).key = _
    rw [hpath']
    exact erase_map (g := fun b => (b.mapNames f).key) fun b hb => hf.beq_key (hl b hb) ha

section
variable (hf : Atom.Naming D f) {ev : Evaluator ν} (hregistry : ev.registry.Keeps D f R)
  (hR : Companions D f R)
include hf hregistry hR

theorem equivariant_step {recur : Atom ν → Evaluating ν (List (Atom ν))} (hrec : Equivariant D f R recur) :
    Equivariant D f R (step recur ev) := by
  intro a ha
  have hself : Renamed D f [a] [a.mapNames f] := ⟨List.forall_mem_singleton.2 ha, rfl⟩
  cases a with
  | expr l =>
    cases l with
    | nil => exact .pure hself
    | cons head args =>
      have hchildren := parallel_evalChildren hf hrec fun a hmem => hf.faithful.part ha hmem
      have hleave {results results' : List (Atom ν)} (h : Renamed D f results results') :
          Parallel D f R
            (do
              modify fun st : Evaluation ν =>
                { st with path := st.path.erase (Atom.expr (head :: args)).key }
              return results)
            (do
              modify fun st : Evaluation ν =>
                { st with path := st.path.erase ((Atom.expr (head :: args)).mapNames f).key }
              return results') (Renamed D f) :=
        (parallel_leave hf ha).bind fun _ _ _ => .pure h
      have henter := parallel_enter (f := f) (R := R) ha
      rw [Atom.mapNames_expr, List.map_cons] at hself hleave henter ⊢
      unfold step
      refine Parallel.bind (P := Paired D f R) (fun _ _ he => ⟨he, he⟩) fun e e' he => ?_
      have hcontains := he.contains hf ha
      rw [Atom.mapNames_expr, List.map_cons] at hcontains
      rw [hcontains]
      split
      · exact .pure hself
      · refine henter.bind fun _ _ _ => (parallel_reduce hf hrec hregistry hR ha).bind ?_
        rintro r _ ⟨hr, rfl⟩
        have hempty : (r.mapNames f).atoms.isEmpty = r.atoms.isEmpty := by simp [Results.mapNames]
        rw [hempty]
        dsimp only
        split
        · refine hchildren.bind ?_
          rintro children _ ⟨hmem, rfl⟩
          exact hleave ⟨List.forall_mem_singleton.2 (hf.expr hmem), by simp⟩
        · exact hleave ⟨hr, rfl⟩
  | _ => exact .pure hself

theorem equivariant_evalPath (depth : Nat) : Equivariant D f R (ev.evalPath depth) := by
  induction depth with
  | zero => exact fun a ha => .pure ⟨List.forall_mem_singleton.2 ha, rfl⟩
  | succ depth ih => exact equivariant_step hf hregistry hR ih

/-- In companion spaces the results of a renamed atom are the renamed results, and the spaces stay
companions. -/
theorem eval_companions {s t : Space ν} (hst : R s t) {a : Atom ν} (ha : a ∈ D) (depth : Nat) :
    (∀ b ∈ (ev.eval a depth s).1, b ∈ D) ∧
      (ev.eval (a.mapNames f) depth t).1 = (ev.eval a depth s).1.map (Atom.mapNames f) ∧
        R (ev.eval a depth s).2 (ev.eval (a.mapNames f) depth t).2 := by
  have hstart : Paired D f R ({ space := s } : Evaluation ν) { space := t } := ⟨hst, [], nofun, rfl, rfl⟩
  obtain ⟨⟨hmem, hresults⟩, hstate⟩ := equivariant_evalPath hf hregistry hR depth a ha _ _ hstart
  exact ⟨hmem, hresults, hstate.spaces⟩

end

end Evaluator

/-! ## A space that takes no notice of the names -/

section
variable {D : Set (Atom ν)} {f : String → String}

open Space (Unnoticed)

theorem Space.companions_self (hf : Atom.Naming D f) : Companions D f (Unnoticed D f) where
  query := (mirroring_unnoticed hf.faithful).query hf
  rules {s t} := by
    rintro ⟨rfl, hs⟩
    refine ⟨List.forall₂_same.2 fun m hm => ⟨rfl, ?_⟩, rfl, hs.read (t.read_query _)⟩
    have hsides {p : Atom ν × Atom ν} (hp : p ∈ Evaluator.sides? m) :
        (p.1 ∈ D ∧ p.1.mapNames f = p.1) ∧ p.2 ∈ D ∧ p.2.mapNames f = p.2 := by
      obtain ⟨left, hleft, hrest⟩ := Option.bind_eq_some_iff.1 hp
      obtain ⟨template, htemplate, ⟨⟩⟩ := Option.bind_eq_some_iff.1 hrest
      exact hs.sides hf hm hleft htemplate
    refine ⟨?_, fun p hp => ⟨(hsides hp).1.1, (hsides hp).2.1⟩⟩
    cases h : Evaluator.sides? m with
    | none => rfl
    | some p =>
      obtain ⟨⟨-, hleft⟩, -, htemplate⟩ := hsides h
      rw [Option.map_some, Prod.map, hleft, htemplate]
  types {s t _ name} := by
    rintro ⟨rfl, hs⟩ - -
    exact ⟨rfl, rfl, hs.read (t.read_query _)⟩

theorem Native.Blind.keeps {code : Native ν} (h : code.Blind D f) : code.Keeps D f (Unnoticed D f) where
  result := by
    rintro args s t hargs ⟨rfl, hs⟩
    exact h.result hargs hs
  spaces := by
    rintro args s t hargs ⟨rfl, hs⟩
    exact ⟨h.space hargs hs, h.unmoved hargs hs⟩
  within := by
    rintro args s t hargs ⟨rfl, hs⟩
    exact h.within hargs hs

theorem Native.Keeps.blind {code : Native ν} (h : code.Keeps D f (Unnoticed D f)) : code.Blind D f where
  result hargs hs := h.result hargs ⟨rfl, hs⟩
  space hargs hs := (h.spaces hargs ⟨rfl, hs⟩).1
  unmoved hargs hs := (h.spaces hargs ⟨rfl, hs⟩).2
  within hargs hs := h.within hargs ⟨rfl, hs⟩

/-- The standard code does not look at names. -/
theorem Registry.blind_standard (hf : Atom.Naming D f) (hD : Native.Closed D) :
    (Registry.standard : Registry ν).Blind D f :=
  fun head name code hcode =>
    (Registry.keeps_standard hf hD.sealed (Space.companions_self hf) head name code hcode).blind

/-- The results of a renamed atom are the renamed results, and the space is left the same. -/
theorem Evaluator.eval_mapNames (hf : Atom.Naming D f) {ev : Evaluator ν} (hregistry : ev.registry.Blind D f)
    {s : Space ν} (hs : s.Unmoved D f) {a : Atom ν} (ha : a ∈ D) (depth : Nat) :
    ev.eval (a.mapNames f) depth s =
      ((ev.eval a depth s).1.map (Atom.mapNames f), (ev.eval a depth s).2) := by
  obtain ⟨-, hresults, hspace, -⟩ := eval_companions (R := Unnoticed D f) hf
    (fun head name code hcode => (hregistry head name code hcode).keeps) (Space.companions_self hf) ⟨rfl, hs⟩ ha
    depth
  exact Prod.ext hresults hspace

end

end Atomspace
