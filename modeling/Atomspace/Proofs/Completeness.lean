import Atomspace.Proofs.Rules
/-!
# Completeness of evaluation

With limits that nothing exceeds, an evaluation in an orderly space finds the values of an atom
without variables, all of them and nothing else (`eval_eq_values`). The order in which rules are
found plays no part, nor does anything that an earlier step leaves behind: a step that goes on with
the space only reads it, and it restores the path.
-/

namespace Atomspace

variable {ν : Type} [Scalar ν]

/-! ## Results -/

namespace Results

/-- The results are of a set and all different, and the limit has room for the whole set. -/
structure Gathers (T : Set (Atom ν)) (r : Results ν) : Prop where
  subset : ∀ a ∈ r.atoms, a ∈ T
  nodup : r.atoms.Nodup
  room : T.encard ≤ r.limit

variable {T : Set (Atom ν)} {r : Results ν}

omit [Scalar ν] in
/-- Where no further result is taken, there is none. -/
theorem Gathers.mem_of_isFull (h : Gathers T r) (hfull : r.isFull = true) {a : Atom ν} (ha : a ∈ T) :
    a ∈ r.atoms := by
  classical
  have hcard : ({b | b ∈ r.atoms} : Set (Atom ν)).encard = r.atoms.length := by
    rw [← List.toFinset_card_of_nodup h.nodup, ← Set.encard_coe_eq_coe_finsetCard, List.coe_toFinset]
  have hle : T.encard ≤ ({b | b ∈ r.atoms} : Set (Atom ν)).encard := by
    rw [hcard]
    exact h.room.trans (by exact_mod_cast of_decide_eq_true hfull)
  rw [← r.atoms.finite_toSet.eq_of_subset_of_encard_le h.subset hle] at ha
  exact ha

omit [Scalar ν] in
theorem Gathers.mem_iff_of_isFull (h : Gathers T r) (hfull : r.isFull = true) {a : Atom ν} {p : Prop}
    (hp : p → a ∈ T) : a ∈ r.atoms ↔ a ∈ r.atoms ∨ p :=
  (or_iff_left_of_imp fun h' => h.mem_of_isFull hfull (hp h')).symm

theorem Gathers.push (h : Gathers T r) (hkeys : Set.InjOn Atom.key T) {a : Atom ν} (ha : a ∈ T) :
    Gathers T (r.push a) ∧ ∀ v, v ∈ (r.push a).atoms ↔ v ∈ r.atoms ∨ v = a := by
  unfold Results.push
  split
  · rename_i hskip
    have hmem : a ∈ r.atoms := by
      rw [Bool.or_eq_true] at hskip
      rcases hskip with hfull | hthere
      · exact h.mem_of_isFull hfull ha
      · obtain ⟨b, hb, hkey⟩ := List.any_eq_true.1 hthere
        rwa [← hkeys (h.subset b hb) ha (by simpa using hkey)]
    exact ⟨h, fun v => (or_iff_left_of_imp (by rintro rfl; exact hmem)).symm⟩
  · rename_i htake
    have hnew : a ∉ r.atoms := by
      intro hmem
      refine htake (Bool.or_eq_true_iff.2 (.inr (List.any_eq_true.2 ⟨a, hmem, by simp⟩)))
    refine ⟨⟨?_, ?_, h.room⟩, fun v => by simp⟩
    · intro b hb
      rw [List.mem_append, List.mem_singleton] at hb
      rcases hb with hb | rfl
      · exact h.subset b hb
      · exact ha
    · rw [List.nodup_append]
      refine ⟨h.nodup, List.nodup_singleton a, ?_⟩
      rintro b hb c hc rfl
      rw [List.mem_singleton.1 hc] at hb
      exact hnew hb

theorem Gathers.extend (h : Gathers T r) (hkeys : Set.InjOn Atom.key T) {l : List (Atom ν)}
    (hl : ∀ a ∈ l, a ∈ T) :
    Gathers T (r.extend l) ∧ ∀ v, v ∈ (r.extend l).atoms ↔ v ∈ r.atoms ∨ v ∈ l := by
  induction l generalizing r with
  | nil => exact ⟨h, fun v => by simp [Results.extend]⟩
  | cons a l ih =>
    obtain ⟨hpush, hmem⟩ := h.push hkeys (hl a (by simp))
    obtain ⟨hextend, hmem'⟩ := ih hpush fun b hb => hl b (by simp [hb])
    refine ⟨hextend, fun v => (hmem' v).trans ?_⟩
    rw [hmem, List.mem_cons, or_assoc]

end Results

namespace Evaluator

open Space (Read)
open Results (Gathers)

variable {D : Set (Atom ν)} {s : Space ν} {path : List String}

/-! ## Computations that read -/

/-- The space is only read, and the path changes by a function. -/
def Moves (f : List String → List String) (e e' : Evaluation ν) : Prop :=
  Read e.space e'.space ∧ e'.path = f e.path

/-- The space is only read, and the path is the same. -/
abbrev Keeps : Evaluation ν → Evaluation ν → Prop := Moves id

omit [Scalar ν] in
theorem Moves.comp {f g : List String → List String} (e e' e'' : Evaluation ν) (h : Moves f e e')
    (h' : Moves g e' e'') : Moves (g ∘ f) e e'' :=
  ⟨h.1.trans h'.1, by rw [h'.2, h.2]; rfl⟩

omit [Scalar ν] in
/-- What is put on the path and taken off again leaves it as it was. -/
theorem Moves.restore {key : String} (e e' e'' : Evaluation ν) (h : Moves (key :: ·) e e')
    (h' : Moves (·.erase key) e' e'') : Keeps e e'' :=
  ⟨h.1.trans h'.1, (h'.2.trans (congrArg (·.erase key) h.2)).trans (List.erase_cons_head _ _)⟩

instance : IsTrans (Evaluation ν) Keeps := ⟨Moves.comp⟩

omit [Scalar ν] in
theorem Keeps.refl (e : Evaluation ν) : Keeps e e := ⟨.refl _, rfl⟩

/-- A state of the evaluation of expressions on a path, in a space that was only read. -/
def Amid (s : Space ν) (path : List String) (e : Evaluation ν) : Prop := Read s e.space ∧ e.path = path

omit [Scalar ν] in
theorem Amid.keeps {e e' : Evaluation ν} (h : Amid s path e) (h' : Keeps e e') : Amid s path e' :=
  ⟨h.1.trans h'.1, h'.2.trans h.2⟩

theorem keeps_ask (e : Evaluation ν) (p : Atom ν) :
    Yields Keeps (ask p) e fun found _ => found = (e.space.query p).1 :=
  ⟨⟨e.space.read_query p, rfl⟩, rfl⟩

/-- Evaluation one level deeper finds the values of an atom, each once. -/
def Finds (s : Space ν) (path : List String) (recur : Atom ν → Evaluating ν (List (Atom ν)))
    (a : Atom ν) (vs : Set (Atom ν)) : Prop :=
  ∀ e, Amid s path e → Yields Keeps (recur a) e fun found _ => found.Nodup ∧ ∀ v, v ∈ found ↔ v ∈ vs

theorem eq_singleton_iff_of_nodup {α : Type} {l : List α} {T : Set α} (hl : l.Nodup)
    (hT : ∀ v, v ∈ l ↔ v ∈ T) (v : α) : T = {v} ↔ l = [v] := by
  constructor
  · rintro rfl
    have hperm : l.Perm [v] := (List.perm_ext_iff_of_nodup hl (List.nodup_singleton v)).2 (by simpa using hT)
    exact List.perm_singleton.1 hperm
  · rintro rfl
    ext w
    rw [← hT w]
    simp

section
variable {recur : Atom ν → Evaluating ν (List (Atom ν))} {next : Atom ν → Set (Atom ν)}
  {e : Evaluation ν} {T : Set (Atom ν)} {r : Results ν}

variable (next) in
theorem finds_applyGround (he : Amid s path e) (hkeys : Set.InjOn Atom.key T) (hr : Gathers T r)
    {l : List (Match ν)} (hl : ∀ m ∈ l, ∀ w, groundResult? m = some w →
      (∀ v ∈ next w, v ∈ T) ∧ Finds s path recur w (next w)) :
    Yields Keeps (applyGround recur l r) e fun x _ => Gathers T x.2 ∧
      (∀ v, v ∈ x.2.atoms ↔ v ∈ r.atoms ∨ ∃ m ∈ l, ∃ w, groundResult? m = some w ∧ v ∈ next w) ∧
      ∀ k ∈ x.1, ∃ m ∈ l, m.atom.key = k ∧ ∃ w, groundResult? m = some w := by
  induction l generalizing r e with
  | nil => exact ⟨.refl e, hr, fun v => (or_iff_left (by simp)).symm, fun _ hk => by cases hk⟩
  | cons m l ih =>
    have hrest := fun m' hm' => hl m' (List.mem_cons_of_mem m hm')
    unfold applyGround
    split
    · rename_i hfull
      refine ⟨.refl e, hr, fun v => hr.mem_iff_of_isFull hfull ?_, fun _ hk => by cases hk⟩
      rintro ⟨m', hm', w, hw, hv⟩
      exact (hl m' hm' w hw).1 v hv
    · split
      · rename_i hnone
        obtain ⟨hkeep, hgathers, hmem, hkey⟩ := ih he hr hrest
        refine ⟨hkeep, hgathers, fun v => ?_, fun k hk => ?_⟩
        · rw [hmem v]
          simp [hnone]
        · obtain ⟨m', hm', h⟩ := hkey k hk
          exact ⟨m', List.mem_cons_of_mem m hm', h⟩
      · rename_i w hw
        obtain ⟨hnext, hfinds⟩ := hl m (by simp) w hw
        refine (hfinds e he).bind fun found e₁ h₁ hfound => ?_
        obtain ⟨hgathers, hmem⟩ := hr.extend hkeys fun v hv => hnext v ((hfound.2 v).1 hv)
        refine (ih (he.keeps h₁) hgathers hrest).bind fun x e₂ h₂ hx => ⟨.refl e₂, hx.1, fun v => ?_, ?_⟩
        · refine (hx.2.1 v).trans ?_
          rw [hmem v, hfound.2 v]
          simp [hw, or_assoc]
        · intro k hk
          obtain rfl | hk := List.mem_cons.1 hk
          · exact ⟨m, by simp, rfl, w, hw⟩
          · obtain ⟨m', hm', h⟩ := hx.2.2 k hk
            exact ⟨m', List.mem_cons_of_mem m hm', h⟩

variable (next) in
theorem finds_applyGeneral (he : Amid s path e) (hkeys : Set.InjOn Atom.key T) (hr : Gathers T r)
    {a : Atom ν} {applied : List String} {l : List (Match ν)}
    (happlied : ∀ m ∈ l, ∀ w, generalResult? a m = some w → m.atom.key ∉ applied)
    (hl : ∀ m ∈ l, ∀ w, generalResult? a m = some w →
      (∀ v ∈ next w, v ∈ T) ∧ Finds s path recur w (next w)) :
    Yields Keeps (applyGeneral recur a applied l r) e fun x _ => Gathers T x ∧
      ∀ v, v ∈ x.atoms ↔ v ∈ r.atoms ∨ ∃ m ∈ l, ∃ w, generalResult? a m = some w ∧ v ∈ next w := by
  induction l generalizing r e with
  | nil => exact ⟨.refl e, hr, fun v => (or_iff_left (by simp)).symm⟩
  | cons m l ih =>
    have hrest := fun m' hm' => hl m' (List.mem_cons_of_mem m hm')
    have happlied' := fun m' hm' => happlied m' (List.mem_cons_of_mem m hm')
    -- a match that gives nothing is passed over
    have hskip (hnone : generalResult? a m = none) : Yields Keeps (applyGeneral recur a applied l r) e
        fun x _ => Gathers T x ∧ ∀ v, v ∈ x.atoms ↔
          v ∈ r.atoms ∨ ∃ m' ∈ m :: l, ∃ w, generalResult? a m' = some w ∧ v ∈ next w := by
      obtain ⟨hkeep, hgathers, hmem⟩ := ih he hr happlied' hrest
      refine ⟨hkeep, hgathers, fun v => ?_⟩
      rw [hmem v]
      simp [hnone]
    unfold applyGeneral
    split
    · rename_i hfull
      refine ⟨.refl e, hr, fun v => hr.mem_iff_of_isFull hfull ?_⟩
      rintro ⟨m', hm', w, hw, hv⟩
      exact (hl m' hm' w hw).1 v hv
    · split
      · rename_i hthere
        apply hskip
        cases hw : generalResult? a m with
        | none => rfl
        | some w => exact absurd (List.contains_iff_mem.1 hthere) (happlied m (by simp) w hw)
      · split
        · rename_i hnone
          exact hskip hnone
        · rename_i w hw
          obtain ⟨hnext, hfinds⟩ := hl m (by simp) w hw
          refine (hfinds e he).bind fun found e₁ h₁ hfound => ?_
          obtain ⟨hgathers, hmem⟩ := hr.extend hkeys fun v hv => hnext v ((hfound.2 v).1 hv)
          obtain ⟨hkeep, hx, hmem'⟩ := ih (he.keeps h₁) hgathers happlied' hrest
          refine ⟨hkeep, hx, fun v => ?_⟩
          rw [hmem' v, hmem v, hfound.2 v]
          simp [hw, or_assoc]

omit [Scalar ν] in
/-- Arguments have values for native code if each has exactly one. `p` are the arguments before. -/
theorem finds_argumentValues (he : Amid s path e) {l : List (Atom ν)}
    (hl : ∀ p a m, l = p ++ a :: m → (∀ b ∈ p, ∃ c, next b = {c}) → Finds s path recur a (next a)) :
    Yields Keeps (argumentValues recur l) e fun x _ => ∀ results, x = some results ↔
      List.Forall₂ (fun a b => next a = {b}) l results := by
  induction l generalizing e with
  | nil =>
    refine ⟨.refl e, fun results => ?_⟩
    rw [List.forall₂_nil_left_iff]
    exact ⟨fun h => (Option.some.inj h).symm, fun h => by rw [h]; rfl⟩
  | cons a l ih =>
    unfold argumentValues
    refine (hl [] a l rfl (by simp) e he).bind fun found e₁ h₁ hfound => ?_
    have hsingle := eq_singleton_iff_of_nodup hfound.1 hfound.2
    split
    · rename_i v
      have hv : next a = {v} := (hsingle v).2 rfl
      refine (ih (he.keeps h₁) fun p b m e hp => hl (a :: p) b m (by rw [e]; rfl) ?_).bind
        fun x e₂ h₂ hx => ⟨.refl e₂, fun results => ?_⟩
      · exact List.forall_mem_cons.2 ⟨⟨v, hv⟩, hp⟩
      · show x.map (v :: ·) = some results ↔ _
        rw [Option.map_eq_some_iff, List.forall₂_cons_left_iff]
        constructor
        · rintro ⟨rest, hrest, rfl⟩
          exact ⟨v, rest, hv, (hx rest).1 hrest, rfl⟩
        · rintro ⟨w, rest, hw, hrest, rfl⟩
          rw [Set.singleton_injective (hw.symm.trans hv)]
          exact ⟨rest, (hx rest).2 hrest, rfl⟩
    · rename_i hmany
      refine ⟨.refl e₁, fun results => iff_of_false (fun h => by cases h) ?_⟩
      rw [List.forall₂_cons_left_iff]
      rintro ⟨v, rest, hv, -, -⟩
      exact hmany v ((hsingle v).1 hv)

/-- Children with exactly one value are replaced by it. -/
theorem finds_evalChildren (hD : Atom.Faithful D) (he : Amid s path e) {l : List (Atom ν)}
    (hl : ∀ a ∈ l, a ∈ D ∧ (∀ v ∈ next a, v ∈ D) ∧ Finds s path recur a (next a)) :
    Yields Keeps (evalChildren recur l) e fun x _ => x = l.map (settle next) := by
  induction l generalizing e with
  | nil => exact ⟨.refl e, rfl⟩
  | cons a l ih =>
    obtain ⟨haD, hvalues, hfinds⟩ := hl a (by simp)
    unfold evalChildren
    refine (hfinds e he).bind fun found e₁ h₁ hfound => ?_
    refine (ih (he.keeps h₁) fun b hb => hl b (by simp [hb])).bind fun x e₂ h₂ hx => ⟨.refl e₂, ?_⟩
    have hsingle := eq_singleton_iff_of_nodup hfound.1 hfound.2
    rw [hx, List.map_cons]
    refine congrArg (· :: _) ?_
    split
    · rename_i v
      have hv : next a = {v} := (hsingle v).2 rfl
      rw [settle_eq hv]
      split
      · rename_i h
        exact (hD.eq_of_beq (hvalues v (by rw [hv]; rfl)) haD h).symm
      · rfl
    · rename_i hmany
      exact (settle_of_ne fun v hv => hmany v ((hsingle v).1 hv)).symm

variable {ev : Evaluator ν}

theorem finds_applyNative (h : Orderly D s ev.registry) (he : Amid s path e)
    (hkeys : Set.InjOn Atom.key T) (hr : Gathers T r) {head : Atom ν} {args : List (Atom ν)}
    (hargs : ∀ code p a m, ev.registry.resolve? head = some code → args = p ++ a :: m →
      (∀ b ∈ p, ∃ c, next b = {c}) → Finds s path recur a (next a))
    (hout : ∀ name f results out, ev.registry.resolve? head = some (name, f) →
      List.Forall₂ (fun a b => next a = {b}) args results → (f results s).1 = .ok out →
      (∀ v ∈ next out, v ∈ T) ∧ Finds s path recur out (next out)) :
    Yields Keeps (applyNative recur ev head args r) e fun x _ => Gathers T x ∧
      ∀ v, v ∈ x.atoms ↔ v ∈ r.atoms ∨ ∃ name f results out, ev.registry.resolve? head = some (name, f) ∧
        List.Forall₂ (fun a b => next a = {b}) args results ∧ (f results s).1 = .ok out ∧
        v ∈ next out := by
  unfold applyNative
  split
  · rename_i hnone
    refine ⟨.refl e, hr, fun v => (or_iff_left ?_).symm⟩
    rintro ⟨name, f, results, out, hf, -⟩
    rw [hnone] at hf
    cases hf
  · rename_i name f hf
    obtain ⟨g, rfl, -⟩ := h.code head name f hf
    refine (finds_argumentValues he fun p a m => hargs _ p a m hf).bind fun x e₁ h₁ hx => ?_
    split
    · refine ⟨.refl e₁, hr, fun v => (or_iff_left ?_).symm⟩
      rintro ⟨_, _, results, out, -, hresults, -⟩
      cases (hx results).2 hresults
    · rename_i values
      have hcall : Yields Keeps (call (Native.pure g) values) e₁ fun y _ => y = g values :=
        ⟨.refl e₁, rfl⟩
      refine hcall.bind fun y e₂ h₂ hy => ?_
      -- the code is called on the only values that the arguments have
      have honly {name' : String} {f' : Native ν} {results : List (Atom ν)} {out : Atom ν}
          (hf' : ev.registry.resolve? head = some (name', f'))
          (hresults : List.Forall₂ (fun a b => next a = {b}) args results)
          (hout : (f' results s).1 = .ok out) : y = .ok out := by
        rw [hf, Option.some.injEq, Prod.mk.injEq] at hf'
        obtain ⟨-, rfl⟩ := hf'
        rw [hy, Option.some.inj ((hx results).2 hresults)]
        exact hout
      split
      · refine ⟨.refl e₂, hr, fun v => (or_iff_left ?_).symm⟩
        rintro ⟨_, _, results, out, hf', hresults, hout, -⟩
        cases honly hf' hresults hout
      · rename_i out
        have hvalues := (hx values).1 rfl
        obtain ⟨hnext, hfinds⟩ := hout name _ values out hf hvalues hy.symm
        refine (hfinds e₂ ((he.keeps h₁).keeps h₂)).bind fun found e₃ h₃ hfound => ?_
        obtain ⟨hgathers, hmem⟩ := hr.extend hkeys fun v hv => hnext v ((hfound.2 v).1 hv)
        refine ⟨.refl e₃, hgathers, fun v => (hmem v).trans (or_congr_right ?_)⟩
        rw [hfound.2 v]
        constructor
        · intro hv
          exact ⟨name, _, values, out, hf, hvalues, hy.symm, hv⟩
        · rintro ⟨_, _, results, out', hf', hresults, hout, hv⟩
          cases honly hf' hresults hout
          exact hv

/-- Whether arguments agree with a declared type is found out by a query. -/
theorem finds_arityAgrees (h : Orderly D s ev.registry) (he : Amid s path e) {head : Atom ν} (count : Nat)
    (hhead : head ∈ D) (hroom : ∀ name, declaredName? head = some name →
      s.Uncut (.expr [.symbol ":", .symbol name, .var "__type"])) :
    Yields Keeps (arityAgrees head count) e fun b _ => b = true ↔ Agrees s head count := by
  unfold arityAgrees
  split
  · rename_i hnone
    refine ⟨.refl e, iff_of_true rfl fun name k hname => ?_⟩
    rw [hnone] at hname
    cases hname
  · rename_i name hname
    refine (keeps_ask e _).bind fun found e₁ h₁ hfound => ⟨.refl e₁, ?_⟩
    rw [hfound]
    refine (h.all_arity_iff he.1 (h.names head hhead name hname) (hroom name hname)).trans ?_
    refine ⟨fun hall name' k hname' => ?_, fun hall k => hall name k hname⟩
    rw [hname] at hname'
    cases hname'
    exact hall k

/-! ## An expression taken apart -/

/-- What is known where an expression is taken apart: `next` has the values of what comes up one level
deeper, and they are found. -/
structure Unfolds (D : Set (Atom ν)) (s : Space ν) (ev : Evaluator ν) (path : List String)
    (recur : Atom ν → Evaluating ν (List (Atom ν))) (next : Atom ν → Set (Atom ν)) (head : Atom ν)
    (args : List (Atom ν)) : Prop where
  ground : .expr (head :: args) ∈ groundPart D
  values : ∀ a ∈ groundPart D, ∀ v ∈ next a, v ∈ groundPart D
  room : (reducts s ev.registry next head args).encard ≤ (max ev.config.maxResults 1 : Nat)
  type : ∀ name, declaredName? head = some name →
    s.Uncut (.expr [.symbol ":", .symbol name, .var "__type"])
  result : Agrees s head args.length →
    s.Uncut (.expr [.symbol "=", .expr (head :: args), .var "__result"])
  template : Agrees s head args.length →
    s.Uncut (.expr [.symbol "=", .var "__pattern", .var "__template"])
  rule : Agrees s head args.length → ∀ l q f, s.Rule l q → l.bind f = .expr (head :: args) →
    Finds s path recur (q.bind f) (next (q.bind f))
  argument : Agrees s head args.length → ∀ code p a m, ev.registry.resolve? head = some code →
    args = p ++ a :: m → (∀ b ∈ p, ∃ c, next b = {c}) → Finds s path recur a (next a)
  output : Agrees s head args.length → ∀ name f results out,
    ev.registry.resolve? head = some (name, f) →
    List.Forall₂ (fun a b => next a = {b}) args results → (f results s).1 = .ok out →
    Finds s path recur out (next out)
  child : reducts s ev.registry next head args = ∅ → ∀ a ∈ head :: args, Finds s path recur a (next a)

theorem Roomy.unfolds (h : Orderly D s ev.registry) {depth : Nat} {P : Set (Atom ν)} {head : Atom ν}
    {args : List (Atom ν)} (ha : .expr (head :: args) ∈ groundPart D) (hpath : .expr (head :: args) ∉ P)
    (hroom : Roomy ev s ⟨depth + 1, P, .expr (head :: args)⟩)
    (hrec : ∀ a ∈ groundPart D, Roomy ev s ⟨depth, insert (.expr (head :: args)) P, a⟩ →
      Finds s path recur a (values s ev.registry depth (insert (.expr (head :: args)) P) a)) :
    Unfolds D s ev path recur (values s ev.registry depth (insert (.expr (head :: args)) P)) head args := by
  have hopens : Opens ⟨depth + 1, P, .expr (head :: args)⟩ depth (insert (.expr (head :: args)) P) head
    args := .intro hpath
  have hparts := (groundPart_expr h.ample).1 ha
  have hvalues : ∀ a ∈ groundPart D, ∀ v ∈ values s ev.registry depth (insert (.expr (head :: args)) P) a,
    v ∈ groundPart D := fun a ha v hv => h.values_mem depth ha hv
  refine ⟨ha, hvalues, ?_, ?_, ?_, ?_, ?_, ?_, ?_, ?_⟩
  · rcases Set.eq_empty_or_nonempty (reducts s ev.registry
      (values s ev.registry depth (insert (.expr (head :: args)) P)) head args) with hempty | hsome
    · simp [hempty]
    · have hle := hroom.room _ .refl
      rwa [values_of_reducts hpath hsome] at hle
  · exact fun name hname => hroom.queries _ _ .refl (.type hopens hname)
  · exact fun hagree => hroom.queries _ _ .refl (.result hopens hagree)
  · exact fun hagree => hroom.queries _ _ .refl (.template hopens hagree)
  · intro hagree l q f hlq hl
    exact hrec _ (h.rule_mem hlq (by rwa [hl])) (hroom.call (.rule hopens hagree hlq hl))
  · intro hagree code p a m hcode hargs hp
    subst hargs
    exact hrec a (hparts a (by simp)) (hroom.call (.argument hopens hagree hcode hp))
  · intro hagree name f results out hf hresults hout
    have houtD := h.output_mem hf (fun a ha => hvalues a (hparts a (by simp [ha]))) hresults hout
    exact hrec out houtD (hroom.call (.output hopens hagree hf hresults hout))
  · intro hempty a ha
    exact hrec a (hparts a ha) (hroom.call (.child hopens hempty ha))

variable {head : Atom ν} {args : List (Atom ν)}

theorem Unfolds.finds_reduce (hu : Unfolds D s ev path recur next head args)
    (h : Orderly D s ev.registry) (he : Amid s path e) :
    Yields Keeps (reduce recur ev head args) e fun x _ => x.atoms.Nodup ∧
      ∀ v, v ∈ x.atoms ↔ v ∈ reducts s ev.registry next head args := by
  have ha := hu.ground
  have hT := h.reducts_mem ha hu.values
  have hkeys : Set.InjOn Atom.key (reducts s ev.registry next head args) :=
    fun a ha b hb => h.ample.eq_of_key (hT a ha).1 (hT b hb).1
  unfold reduce
  have hhead := (groundPart_expr h.ample).1 ha head (by simp)
  refine (finds_arityAgrees h he args.length hhead.1 hu.type).bind fun agrees e₁ h₁ hagrees => ?_
  have he₁ := he.keeps h₁
  split
  · rename_i hyes
    have hagree := hagrees.1 hyes
    have hresult := hu.result hagree
    have htemplate := hu.template hagree
    -- what a rule gives belongs to what the expression reduces to, and its values are found
    have hrule {l q : Atom ν} {f : String → Atom ν} (hlq : s.Rule l q)
        (hl : l.bind f = .expr (head :: args)) :
        (∀ v ∈ next (q.bind f), v ∈ reducts s ev.registry next head args) ∧
          Finds s path recur (q.bind f) (next (q.bind f)) :=
      ⟨fun v hv => ⟨hagree, .rule hlq hl hv⟩, hu.rule hagree l q f hlq hl⟩
    refine (keeps_ask e₁ _).bind fun ground e₂ h₂ hground => ?_
    subst hground
    have he₂ := he₁.keeps h₂
    refine (finds_applyGround next he₂ hkeys ⟨by simp, List.nodup_nil, hu.room⟩ fun m hm w hw => ?_).bind
      fun x e₃ h₃ hx => ?_
    · have hself := hrule ((h.groundResult?_iff he₁.1 ha.1 ha.2 hresult).1 ⟨m, hm, hw⟩)
        (Atom.bind_var_eq_self _)
      rwa [Atom.bind_var_eq_self] at hself
    have he₃ := he₂.keeps h₃
    refine (keeps_ask e₃ _).bind fun general e₄ h₄ hgeneral => ?_
    subst hgeneral
    refine (finds_applyGeneral next (he₃.keeps h₄) hkeys hx.1 (fun m hm w hw hk => ?_)
      fun m hm w hw => ?_).bind fun r₁ e₅ h₅ hr₁ => ?_
    · obtain ⟨m', hm', hkey, w', hw'⟩ := hx.2.2 _ hk
      exact h.key_ne_of_results he₁.1 he₃.1 ha (Space.found_query hm') hw' (Space.found_query hm) hw hkey
    · obtain ⟨l, q, hlq, -, f, hl, rfl⟩ := (h.generalResult?_iff he₃.1 ha.1 ha.2 htemplate).1 ⟨m, hm, hw⟩
      exact hrule hlq hl
    obtain ⟨hkeep, hx', hmem⟩ := finds_applyNative h ((he₃.keeps h₄).keeps h₅) hkeys hr₁.1
      (hu.argument hagree) fun name f results out hf hresults hout =>
        ⟨fun v hv => ⟨hagree, .native hf hresults hout hv⟩, hu.output hagree _ _ _ _ hf hresults hout⟩
    refine ⟨hkeep, hx'.nodup, fun v => ⟨hx'.subset v, ?_⟩⟩
    rintro ⟨-, hreduct⟩
    rw [hmem v, hr₁.2 v, hx.2.1 v]
    cases hreduct with
    | native hf hresults hout hv => exact .inr ⟨_, _, _, _, hf, hresults, hout, hv⟩
    | rule hlq hl hv =>
      rcases h.exists_match_of_rule he₁.1 he₃.1 ha.1 ha.2 hresult htemplate hlq hl with
        ⟨m, hm, hw⟩ | ⟨m, hm, hw⟩
      · exact .inl (.inl (.inr ⟨m, hm, _, hw, hv⟩))
      · exact .inl (.inr ⟨m, hm, _, hw, hv⟩)
  · rename_i hno
    refine ⟨.refl e₁, List.nodup_nil, fun v => iff_of_false List.not_mem_nil ?_⟩
    rintro ⟨hagree, -⟩
    exact hno (hagrees.2 hagree)

/-- The path has the keys of a set of expressions. -/
def Marks (D : Set (Atom ν)) (path : List String) (P : Set (Atom ν)) : Prop :=
  ∀ a ∈ D, a.key ∈ path ↔ a ∈ P

theorem Marks.cons (hD : Atom.Ample D) {P : Set (Atom ν)} (h : Marks D path P) {a : Atom ν} (ha : a ∈ D) :
    Marks D (a.key :: path) (insert a P) := by
  intro b hb
  rw [List.mem_cons, Set.mem_insert_iff, h b hb]
  refine or_congr_left ⟨hD.eq_of_key hb ha, ?_⟩
  rintro rfl
  rfl

/-- With a number of levels, evaluation finds the values of all atoms without variables. -/
def Complete (D : Set (Atom ν)) (s : Space ν) (ev : Evaluator ν) (depth : Nat)
    (recur : Atom ν → Evaluating ν (List (Atom ν))) : Prop :=
  ∀ path P, Marks D path P → ∀ a ∈ groundPart D, Roomy ev s ⟨depth, P, a⟩ →
    Finds s path recur a (values s ev.registry depth P a)

omit [Scalar ν] in
theorem finds_self {e : Evaluation ν} {a : Atom ν} {T : Set (Atom ν)} (hT : T = {a}) :
    Yields Keeps (pure [a]) e fun found _ => found.Nodup ∧ ∀ v, v ∈ found ↔ v ∈ T := by
  subst hT
  exact ⟨.refl e, List.nodup_singleton a, fun v => List.mem_singleton⟩

/-- An expression on the path stands for itself. -/
theorem finds_step_of_mem (ev : Evaluator ν) (hpath : (Atom.expr (head :: args)).key ∈ path) :
    Finds s path (step recur ev) (.expr (head :: args)) {.expr (head :: args)} := by
  intro e he
  have hget : Yields Keeps get e fun st _ => st.path = path := ⟨.refl e, he.2⟩
  unfold step
  refine hget.bind fun st e₁ h₁ hst => ?_
  rw [hst, if_pos (List.contains_iff_mem.2 hpath)]
  exact finds_self rfl

/-- Any other expression has what it reduces to as values, or else itself with its children settled. -/
theorem Unfolds.finds_step (h : Orderly D s ev.registry) (hpath : (Atom.expr (head :: args)).key ∉ path)
    (hu : Unfolds D s ev ((Atom.expr (head :: args)).key :: path) recur next head args) {T : Set (Atom ν)}
    (hsome : (reducts s ev.registry next head args).Nonempty → T = reducts s ev.registry next head args)
    (hnone : reducts s ev.registry next head args = ∅ → T = {.expr ((head :: args).map (settle next))}) :
    Finds s path (step recur ev) (.expr (head :: args)) T := by
  intro e he
  have hget : Yields Keeps get e fun st _ => st.path = path := ⟨.refl e, he.2⟩
  unfold step
  refine hget.bind fun st e₁ h₁ hst => ?_
  rw [hst, if_neg (mt List.contains_iff_mem.1 hpath)]
  -- the expression is on the path while it is taken apart, and off it again after that
  let key := (Atom.expr (head :: args)).key
  have hpush : Yields (Moves (key :: ·)) (modify fun st => { st with path := key :: st.path }) e₁
      fun _ _ => True := ⟨⟨.refl _, rfl⟩, trivial⟩
  refine hpush.comp (S := Moves (·.erase key)) Moves.restore fun _ e₂ h₂ _ => ?_
  have he₁ := he.keeps h₁
  have he₂ : Amid s (key :: path) e₂ := ⟨he₁.1.trans h₂.1, h₂.2.trans (congrArg _ he₁.2)⟩
  refine (hu.finds_reduce h he₂).comp (S := Moves (·.erase key)) Moves.comp fun r e₃ h₃ hr => ?_
  dsimp only
  split
  · rename_i hempty
    rw [List.isEmpty_iff] at hempty
    have hreducts : reducts s ev.registry next head args = ∅ := by
      refine Set.eq_empty_of_forall_notMem fun v hv => ?_
      rw [← hr.2 v, hempty] at hv
      cases hv
    have hparts := (groundPart_expr h.ample).1 hu.ground
    refine (finds_evalChildren h.ample.faithful (he₂.keeps h₃) fun b hb => ⟨(hparts b hb).1,
      fun v hv => (hu.values b (hparts b hb) v hv).1, hu.child hreducts b hb⟩).comp
        (S := Moves (·.erase key)) Moves.comp fun children e₄ h₄ hchildren => ?_
    refine ⟨⟨.refl _, rfl⟩, List.nodup_singleton _, fun v => ?_⟩
    rw [hnone hreducts, ← hchildren]
    exact List.mem_singleton
  · rename_i hfound
    rw [List.isEmpty_iff] at hfound
    obtain ⟨v, hv⟩ := List.exists_mem_of_ne_nil _ hfound
    rw [hsome ⟨v, (hr.2 v).1 hv⟩]
    exact ⟨⟨.refl _, rfl⟩, hr⟩

theorem complete_step (h : Orderly D s ev.registry) {depth : Nat}
    (hrec : Complete D s ev depth recur) : Complete D s ev (depth + 1) (step recur ev) := by
  intro path P hP a ha hroom
  match a with
  | .expr (head :: args) =>
    by_cases hpath : .expr (head :: args) ∈ P
    · rw [values_of_mem hpath]
      exact finds_step_of_mem ev ((hP _ ha.1).2 hpath)
    · have hunfolds : Unfolds D s ev _ recur _ head args := hroom.unfolds h ha hpath fun b hb hb' =>
        hrec _ _ (hP.cons h.ample ha.1) b hb hb'
      exact hunfolds.finds_step h (mt (hP _ ha.1).1 hpath) (values_of_reducts hpath)
        (values_of_no_reducts hpath)
  | .expr [] | .symbol _ | .var _ | .int _ | .float _ | .str _ | .list _ | .function _ =>
    exact fun _ _ => finds_self rfl

theorem complete_evalPath (h : Orderly D s ev.registry) (depth : Nat) :
    Complete D s ev depth (ev.evalPath depth) := by
  induction depth with
  | zero => exact fun _ _ _ a _ _ e _ => finds_self rfl
  | succ depth ih => exact complete_step h ih

end

theorem trusts_twice {a : Atom (Exact fun _ => 1)} (h : twice.Trusts a) :
    (∃ name ∈ Space.protectedNames, a = .symbol name) ∨
      a = .expr [.symbol "=", .expr [.symbol "twice", .var "x"],
        .expr [.symbol "pair", .var "x", .var "x"]] := by
  obtain ⟨key, truth, hfact, -⟩ := h
  exact mem_twice (Space.atom?_of_fact? hfact)

theorem rule_twice {l q : Atom (Exact fun _ => 1)} (h : twice.Rule l q) :
    l = .expr [.symbol "twice", .var "x"] ∧ q = .expr [.symbol "pair", .var "x", .var "x"] := by
  rcases trusts_twice h with ⟨_, _, e⟩ | e
  · cases e
  · simpa using e

theorem not_declares_twice (name : String) (count : Nat) : ¬ twice.Declares name count := by
  rintro ⟨n, head, parts, htrust, -⟩
  rcases trusts_twice htrust with ⟨_, _, e⟩ | e <;> simp at e

theorem orderly_twice : Orderly {a | Atom.Plain a} twice pairing.registry where
  ample := Atom.ample_plain
  colon := .symbol (by decide)
  names head hhead name hname := by
    cases hhead with
    | symbol h =>
      cases hname
      exact .symbol h
    | _ => cases hname
  reachable := ⟨default, .single (.add _ _)⟩
  within := twice_within
  headed x l q h := by
    rcases trusts_twice h with ⟨_, _, e⟩ | e <;> simp at e
  closed l q h := by
    obtain ⟨rfl, rfl⟩ := rule_twice h
    decide
  declared name j k h _ := absurd h (not_declares_twice name j)
  code head name f hf := by
    obtain ⟨rfl, -⟩ := eq_compose_of_resolve? hf
    refine ⟨_, rfl, fun args out hargs h => ?_⟩
    cases h
    exact (groundPart_expr Atom.ample_plain).2 hargs

theorem eq_of_bind_twice {f : String → Atom (Exact fun _ => 1)} {head : Atom (Exact fun _ => 1)}
    {args : List (Atom (Exact fun _ => 1))}
    (h : (Atom.expr [.symbol "twice", .var "x"]).bind f = .expr (head :: args)) :
    head = .symbol "twice" ∧ args = [f "x"] := by
  simpa [eq_comm] using h

theorem subsingleton_reducts {next : Atom (Exact fun _ => 1) → Set (Atom (Exact fun _ => 1))}
    (hnext : ∀ a, (next a).Subsingleton) {head : Atom (Exact fun _ => 1)}
    {args : List (Atom (Exact fun _ => 1))} :
    (reducts twice pairing.registry next head args).Subsingleton := by
  -- the head tells whether the rule or the code is used
  rintro v ⟨-, hv⟩ w ⟨-, hw⟩
  cases hv with
  | rule hrule hl hv =>
    obtain ⟨rfl, rfl⟩ := rule_twice hrule
    obtain ⟨rfl, rfl⟩ := eq_of_bind_twice hl
    cases hw with
    | rule hrule' hl' hw =>
      obtain ⟨rfl, rfl⟩ := rule_twice hrule'
      have hx := (eq_of_bind_twice hl').2
      simp only [List.cons.injEq, and_true] at hx
      simp only [Atom.bind_expr, List.map_cons, List.map_nil, Atom.bind_symbol, Atom.bind_var] at hv hw
      rw [← hx] at hw
      exact hnext _ hv hw
    | native hf =>
      have hhead := (eq_compose_of_resolve? hf).2
      simp at hhead
  | native hf hresults hout hv =>
    obtain ⟨rfl, hhead⟩ := eq_compose_of_resolve? hf
    cases hout
    cases hw with
    | rule hrule' hl' hw =>
      obtain ⟨rfl, rfl⟩ := rule_twice hrule'
      obtain ⟨rfl, -⟩ := eq_of_bind_twice hl'
      simp at hhead
    | native hf' hresults' hout' hw =>
      obtain ⟨rfl, -⟩ := eq_compose_of_resolve? hf'
      cases hout'
      have hunique := List.right_unique_forall₂'
        (fun _ _ _ h h' => Set.singleton_injective (h.symm.trans h')) hresults hresults'
      rw [← hunique] at hw
      exact hnext _ hv hw

/-- In this space nothing has more than one value. -/
theorem subsingleton_twice (depth : Nat) : ∀ (path : Set (Atom (Exact fun _ => 1))) (a),
    (values twice pairing.registry depth path a).Subsingleton := by
  induction depth with
  | zero => exact fun _ _ => Set.subsingleton_singleton
  | succ depth ih =>
    intro path a
    by_cases hpath : a ∈ path
    · rw [values_of_mem hpath]
      exact Set.subsingleton_singleton
    match a with
    | .expr (head :: args) =>
      rcases Set.eq_empty_or_nonempty (reducts twice pairing.registry
        (values twice pairing.registry depth (insert (.expr (head :: args)) path)) head args) with hnone | hsome
      · rw [values_of_no_reducts hpath hnone]
        exact Set.subsingleton_singleton
      · rw [values_of_reducts hpath hsome]
        exact subsingleton_reducts (ih _)
    | .expr [] | .symbol _ | .var _ | .int _ | .float _ | .str _ | .list _ | .function _ =>
      exact Set.subsingleton_singleton

theorem roomy_twice (t : Task (Exact fun _ => 1)) : Roomy pairing twice t where
  room t' _ := by
    refine (Set.encard_le_one_iff_subsingleton.2 (subsingleton_twice _ _ _)).trans ?_
    exact_mod_cast (le_max_right _ 1)
  queries t' p _ hp := by
    have huncut {c : String} {l : List (Atom (Exact fun _ => 1))} (hc : c = "=" ∨ c = ":") :
        twice.Uncut (.expr (.symbol c :: l)) := by
      have hlength : (twice.candidates (.expr (.symbol c :: l))).length ≤ 1 := by
        show (twice.bucket c ++ twice.bucket Space.openHead).length ≤ 1
        rcases hc with rfl | rfl <;> decide
      refine ⟨hlength.trans (by decide), ?_⟩
      exact (twice.length_examineAll_le _ _).trans (hlength.trans (by decide))
    cases hp with
    | type => exact huncut (.inr rfl)
    | result | template => exact huncut (.inl rfl)

end Evaluator

end Atomspace
