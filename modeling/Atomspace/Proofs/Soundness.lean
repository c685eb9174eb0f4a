import Atomspace.Proofs.Bounds
import Atomspace.Proofs.Derivation
import Atomspace.Proofs.Exact
/-!
# Soundness of evaluation

Every result of an evaluation is derived from the atom that was evaluated (`derives_of_mem_eval`),
whatever the limits cut off. The invariant is that all atoms at hand are *owned* by the space: their
variables are older than the numbers it is going to hand out, so the copies of rules are fresh.
-/

namespace Atomspace

variable {ν : Type} [Scalar ν]

open Space (Access Derives Evolves Found Drawn Rewrites)

/-- The code uses the space by its operations only, it keeps to the set, and no variable of its
result is new. -/
structure Native.Tame (D : Set (Atom ν)) (f : Native ν) : Prop where
  abides : f.Abides Space.Step
  within {args : List (Atom ν)} {s : Space ν} : (∀ a ∈ args, a ∈ D) → s.Within D → (f args s).2.Within D
  result {args : List (Atom ν)} {s : Space ν} {a : Atom ν} : (∀ b ∈ args, b ∈ D) → s.Within D →
    (f args s).1 = .ok a → a ∈ D ∧ ∀ x ∈ a.vars, x ∈ (Atom.expr args).vars

/-- All code of the registry is tame. -/
def Registry.Tame (D : Set (Atom ν)) (r : Registry ν) : Prop :=
  ∀ head name f, r.resolve? head = some (name, f) → f.Tame D

theorem Results.mem_extend {r : Results ν} {l : List (Atom ν)} {a : Atom ν}
    (h : a ∈ (r.extend l).atoms) : a ∈ r.atoms ∨ a ∈ l := by
  induction l generalizing r with
  | nil => exact .inl h
  | cons b l ih =>
    rcases ih (r := r.push b) h with h | h
    · unfold Results.push at h
      split at h
      · exact .inl h
      · simp only [List.mem_append, List.mem_singleton] at h
        rcases h with h | rfl
        · exact .inl h
        · exact .inr (by simp)
    · exact .inr (by simp [h])

namespace Evaluator

variable {D : Set (Atom ν)} {r : Registry ν}

/-! ## Owned atoms -/

/-- The atom is in the set, and its variables are older than the renamings to come. -/
def Owned (D : Set (Atom ν)) (s : Space ν) (a : Atom ν) : Prop :=
  a ∈ D ∧ ∀ x ∈ a.vars, Atom.Older s.renamings x

/-- The space evolves within the set. -/
structure Course (D : Set (Atom ν)) (r : Registry ν) (s t : Space ν) : Prop where
  evolves : Evolves r s t
  within : t.Within D
  renamings : s.renamings ≤ t.renamings

/-- The atom is derived, and the space it is derived in owns it. -/
structure Reached (D : Set (Atom ν)) (r : Registry ν) (s : Space ν) (a : Atom ν) (t : Space ν)
    (b : Atom ν) : Prop where
  derives : Derives r s a t b
  owned : Owned D t b

/-- All atoms of a list are reached. -/
def ReachedAll (D : Set (Atom ν)) (r : Registry ν) (s : Space ν) (a : Atom ν) (l : List (Atom ν))
    (t : Space ν) : Prop :=
  ∀ b ∈ l, Reached D r s a t b

theorem Course.refl {s : Space ν} (hs : s.Within D) : Course D r s s :=
  ⟨.refl, hs, Nat.le_refl _⟩

theorem Course.trans {s t u : Space ν} (h : Course D r s t) (h' : Course D r t u) : Course D r s u :=
  ⟨h.evolves.trans h'.evolves, h'.within, Nat.le_trans h.renamings h'.renamings⟩

theorem Course.query {s : Space ν} (hs : s.Within D) (p : Atom ν) : Course D r s (s.query p).2 :=
  ⟨.single (.query s p), (s.read_query p).within hs, (s.read_query p).renamings⟩

omit [Scalar ν] in
theorem Owned.mono {s t : Space ν} {a : Atom ν} (h : Owned D s a) (hst : s.renamings ≤ t.renamings) :
    Owned D t a :=
  ⟨h.1, fun x hx => (h.2 x hx).mono hst⟩

theorem Owned.part (hD : Atom.Faithful D) {s : Space ν} {l : List (Atom ν)} {a : Atom ν}
    (h : Owned D s (.expr l)) (ha : a ∈ l) : Owned D s a :=
  ⟨hD.part h.1 ha, fun x hx => h.2 x (Atom.vars_expr_of_mem ha hx)⟩

theorem Owned.expr (hD : Atom.Ample D) {s : Space ν} {l : List (Atom ν)} (h : ∀ a ∈ l, Owned D s a) :
    Owned D s (.expr l) := by
  refine ⟨hD.expr fun a ha => (h a ha).1, fun x hx => ?_⟩
  rw [Atom.vars_expr] at hx
  obtain ⟨a, ha, hx⟩ := List.mem_flatMap.1 hx
  exact (h a ha).2 x hx

theorem Owned.copy (hD : Atom.Ample D) {s t : Space ν} {a h : Atom ν} {n : Nat} (ha : a ∈ D)
    (hn : ∀ x ∈ a.vars, Drawn s t n) : Owned D t (Atom.copy h n a) := by
  refine ⟨hD.copy ha h n, fun z hz => ?_⟩
  obtain ⟨x, hx, rfl⟩ := Atom.mem_vars_copy hz
  exact Atom.older_numbered x (hn x hx).2

theorem Owned.rename (hD : Atom.Ample D) {s t : Space ν} {a : Atom ν} {n : Nat} (ha : a ∈ D)
    (hn : ∀ x ∈ a.vars, Drawn s t n) : Owned D t (a.rename n) := by
  refine ⟨hD.rename ha n, fun z hz => ?_⟩
  obtain ⟨x, hx, rfl⟩ := Atom.mem_vars_rename hz
  exact Atom.older_numbered x (hn x hx).2

omit [Scalar ν] in
/-- A number that is handed out later is not that of an owned variable. -/
theorem Owned.numbered_not_mem {s t : Space ν} {a : Atom ν} (h : Owned D s a) {n : Nat}
    (hn : Drawn s t n) (x : String) : Atom.numbered x n ∉ a.vars := by
  intro hx
  exact absurd ((h.2 _ hx).2 x n rfl) (Nat.not_lt.2 hn.1)

theorem Reached.wait {s t : Space ν} {a : Atom ν} (h : Course D r s t) (ha : Owned D s a) :
    Reached D r s a t a :=
  ⟨.wait h.evolves, ha.mono h.renamings⟩

theorem Reached.trans {s t u : Space ν} {a b c : Atom ν} (h : Reached D r s a t b)
    (h' : Reached D r t b u c) : Reached D r s a u c :=
  ⟨.trans h.derives h'.derives, h'.owned⟩

theorem Reached.later {s t u : Space ν} {a b : Atom ν} (h : Reached D r s a t b) (hu : Course D r t u) :
    Reached D r s a u b :=
  h.trans (.wait hu h.owned)

theorem ReachedAll.later {s t u : Space ν} {a : Atom ν} {l : List (Atom ν)} (h : ReachedAll D r s a l t)
    (hu : Course D r t u) : ReachedAll D r s a l u :=
  fun b hb => (h b hb).later hu

/-- Replacing one child by what is derived from it. -/
theorem Reached.child (hD : Atom.Ample D) {s t u : Space ν} {a b c : Atom ν} {l m : List (Atom ν)}
    (h : Reached D r s a t (.expr (l ++ b :: m))) (hu : Course D r t u) (h' : Reached D r t b u c) :
    Reached D r s a u (.expr (l ++ c :: m)) := by
  refine h.trans ⟨.child l m h'.derives, Owned.expr hD fun x hx => ?_⟩
  have hlm {x : Atom ν} (hx : x ∈ l ++ b :: m) : Owned D u x :=
    (h.owned.part hD.faithful hx).mono hu.renamings
  rcases List.mem_append.1 hx with hx | hx
  · exact hlm (by simp [hx])
  · rcases List.mem_cons.1 hx with rfl | hx
    · exact h'.owned
    · exact hlm (by simp [hx])

/-! ## Rules -/

theorem internal_ne_numbered {x : String} (hx : x ∈ Atom.internalNames) (y : String) (k : Nat) :
    x ≠ Atom.numbered y k := by
  rintro rfl
  exact Atom.not_mem_internalNames_numbered y k hx

omit [Scalar ν] in
/-- The copy of a found expression is fresh. -/
theorem Owned.fresh {s t : Space ν} {a c : Atom ν} (ha : Owned D s a) {n : Nat}
    (drawn : c.hasVars = true → Drawn s t n) : ∀ x ∈ c.vars, Drawn s t n ∧ Atom.numbered x n ∉ a.vars := by
  intro x hx
  have hn := drawn (Atom.hasVars_of_mem_vars hx)
  exact ⟨hn, ha.numbered_not_mem hn x⟩

/-- A match of `(= a $__result)` derives what `$__result` stands for. -/
theorem reached_of_result (hD : Atom.Ample D) {s t : Space ν} {a v : Atom ν} {m : Match ν}
    (hs : s.Within D) (hst : Course D r s t) (ha : Owned D s a)
    (hm : Found s t (.expr [.symbol "=", a, .var "__result"]) m)
    (hv : m.bindings.resolve? "__result" = some v) : Reached D r s a t v := by
  obtain ⟨c, b, score⟩ := m
  obtain ⟨l, rfl⟩ : ∃ l, c = .expr l := hm.exists_expr
  obtain ⟨held, trusted, -, drawn, unified⟩ := hm
  have hinternal : "__result" ∈ Atom.internalNames := by decide
  have hself : "__result" ∉ a.vars := fun h => (ha.2 _ h).1 hinternal
  have hfresh := ha.fresh drawn
  have hp := hD.equation ha.1 (hD.internal _ hinternal)
  have hc := Owned.rename hD (hs.fact held) fun x hx => (hfresh x hx).1
  -- only `$__result` itself is not older, and that is replaced
  let V (x : String) : Prop := x = "__result" ∨ Atom.Older t.renamings x
  have hpV : ∀ x ∈ (Atom.expr [.symbol "=", a, .var "__result"]).vars, V x := by
    intro x hx
    rcases Atom.mem_vars_equation.1 hx with hx | hx
    · exact .inr ((ha.2 x hx).mono hst.renamings)
    · exact .inl (List.mem_singleton.1 hx)
  obtain ⟨⟨hvD, hvV⟩, hvself⟩ := mem_of_resolve? (hD.faithful.restrict V) ⟨hp, hpV⟩
    ⟨hc.1, fun x hx => .inr (hc.2 x hx)⟩ unified hv
  refine ⟨?_, hvD, fun x hx => (hvV x hx).resolve_left fun e => hvself (e ▸ hx)⟩
  obtain ⟨h, left, right, σ, rfl, hh, hσ, rfl⟩ := exists_copy_of_unify hD.faithful hp hc.1 unified hv
    (internal_ne_numbered hinternal) hself fun x hx => (hfresh x hx).2
  exact .rule (.intro held trusted hh hfresh hσ) hst.evolves

/-- A match of `(= $__pattern $__template)` derives what the template gives. -/
theorem reached_of_template (hD : Atom.Ample D) {s t : Space ν} {a v : Atom ν} {m : Match ν}
    (hs : s.Within D) (hst : Course D r s t) (ha : Owned D s a)
    (hm : Found s t (.expr [.symbol "=", .var "__pattern", .var "__template"]) m)
    (hv : generalResult? a m = some v) : Reached D r s a t v := by
  obtain ⟨c, b, score⟩ := m
  obtain ⟨l, rfl⟩ : ∃ l, c = .expr l := hm.exists_expr
  obtain ⟨held, trusted, -, drawn, unified⟩ := hm
  obtain ⟨left, hleft, template, htemplate, b', hb', rfl⟩ : ∃ left, b.resolve? "__pattern" = some left ∧
      ∃ template, b.resolve? "__template" = some template ∧
      ∃ b', unify left a ∅ = some b' ∧ b'.subst template = v := by
    simp only [generalResult?, Option.bind_eq_bind, Option.bind_eq_some_iff, Option.pure_def] at hv
    obtain ⟨left, hleft, template, htemplate, hv⟩ := hv
    split at hv
    · obtain ⟨b', hb', hv⟩ := Option.bind_eq_some_iff.1 hv
      exact ⟨left, hleft, template, htemplate, b', hb', Option.some.inj hv⟩
    · cases hv
  have hp : "__pattern" ∈ Atom.internalNames := by decide
  have hq : "__template" ∈ Atom.internalNames := by decide
  have hfresh := ha.fresh drawn
  have hruleD := hs.fact held
  obtain ⟨h, l, q, rfl, hh, rfl, rfl⟩ := eq_copy_of_unify hD.faithful
    (hD.equation (hD.internal _ hp) (hD.internal _ hq)) (hD.rename hruleD _) unified hleft htemplate
    (internal_ne_numbered hp) (internal_ne_numbered hq) (by decide)
  have hcopy {x : Atom ν} (hx : x ∈ [h, l, q]) : Owned D t (Atom.copy h _ x) :=
    .copy hD (hD.faithful.part hruleD hx) fun y hy => (hfresh y (Atom.vars_expr_of_mem hx hy)).1
  have hl := hcopy (x := l) (by simp)
  have hq := hcopy (x := q) (by simp)
  have haD := ha.mono hst.renamings
  have hV := hD.faithful.restrict (Atom.Older t.renamings)
  obtain ⟨-, hwithin, -⟩ := unify_spec hV hl haD hb'
  refine ⟨.rule (.intro held trusted hh hfresh ?_) hst.evolves, hwithin.subst_mem hV hq⟩
  exact mostGeneral_of_unify hD.faithful hl.1 ha.1 hb'

/-! ## Computations -/

section
variable {α β : Type} {R : Evaluation ν → Evaluation ν → Prop} {e : Evaluation ν}

/-- From a state on, a computation leads to a related state, and its answer has a property in the space
that it ends with. -/
structure Yields (R : Evaluation ν → Evaluation ν → Prop) (m : Evaluating ν α) (e : Evaluation ν)
    (Q : α → Space ν → Prop) : Prop where
  leads : R e (m e).2
  answer : Q (m e).1 (m e).2.space

omit [Scalar ν] in
theorem Yields.comp {S U : Evaluation ν → Evaluation ν → Prop} {m : Evaluating ν α}
    {f : α → Evaluating ν β} {P : α → Space ν → Prop} {Q : β → Space ν → Prop}
    (hcomp : ∀ e e' e'', R e e' → S e' e'' → U e e'') (hm : Yields R m e P)
    (hf : ∀ a e', R e e' → P a e'.space → Yields S (f a) e' Q) : Yields U (m >>= f) e Q :=
  have h := hf (m e).1 (m e).2 hm.leads hm.answer
  ⟨hcomp _ _ _ hm.leads h.leads, h.answer⟩

omit [Scalar ν] in
theorem Yields.bind [IsTrans (Evaluation ν) R] {m : Evaluating ν α} {f : α → Evaluating ν β}
    {P : α → Space ν → Prop} {Q : β → Space ν → Prop} (hm : Yields R m e P)
    (hf : ∀ a e', R e e' → P a e'.space → Yields R (f a) e' Q) : Yields R (m >>= f) e Q :=
  hm.comp IsTrans.trans hf

end

/-- The space evolves within the set. -/
def Along (D : Set (Atom ν)) (r : Registry ν) (e e' : Evaluation ν) : Prop := Course D r e.space e'.space

instance : IsTrans (Evaluation ν) (Along D r) := ⟨fun _ _ _ h h' => Course.trans h h'⟩

theorem Yields.pure {α : Type} {e : Evaluation ν} {Q : α → Space ν → Prop} {a : α}
    (he : e.space.Within D) (ha : Q a e.space) : Yields (Along D r) (pure a) e Q :=
  ⟨.refl he, ha⟩

theorem yields_ask {e : Evaluation ν} (he : e.space.Within D) (p : Atom ν) :
    Yields (Along D r) (ask p) e fun found t => ∀ m ∈ found, Found e.space t p m :=
  ⟨.query he p, fun _ hm => Space.found_query hm⟩

theorem yields_path {e : Evaluation ν} (he : e.space.Within D) (f : List String → List String) :
    Yields (Along D r) (modify fun st => { st with path := f st.path }) e fun _ t => t = e.space :=
  ⟨.refl he, rfl⟩

theorem yields_arityAgrees {e : Evaluation ν} (he : e.space.Within D) (head : Atom ν) (count : Nat) :
    Yields (Along D r) (arityAgrees head count) e fun _ _ => True := by
  unfold arityAgrees
  split
  · exact .pure he trivial
  · exact (yields_ask he _).bind fun _ _ hcourse _ => .pure hcourse.within trivial

/-! ## Evaluation -/

/-- Evaluation one level deeper is sound. -/
def Sound (D : Set (Atom ν)) (r : Registry ν) (recur : Atom ν → Evaluating ν (List (Atom ν))) : Prop :=
  ∀ a e, e.space.Within D → Owned D e.space a →
    Yields (Along D r) (recur a) e (ReachedAll D r e.space a)

section
variable {recur : Atom ν → Evaluating ν (List (Atom ν))} {s : Space ν} {a : Atom ν} {e : Evaluation ν}

/-- What is derived from something derived is derived. -/
theorem Sound.reached (hrec : Sound D r recur) {b : Atom ν} (he : e.space.Within D)
    (hb : Reached D r s a e.space b) :
    Yields (Along D r) (recur b) e (ReachedAll D r s a) := by
  obtain ⟨hcourse, hfound⟩ := hrec b e he hb.owned
  exact ⟨hcourse, fun v hv => hb.trans (hfound v hv)⟩

theorem reachedAll_extend {t u : Space ν} {r' : Results ν} {found : List (Atom ν)}
    (htu : Course D r t u) (hr : ReachedAll D r s a r'.atoms t) (hfound : ReachedAll D r s a found u) :
    ReachedAll D r s a (r'.extend found).atoms u := by
  intro v hv
  rcases Results.mem_extend hv with hv | hv
  · exact (hr v hv).later htu
  · exact hfound v hv

theorem yields_applyGround (hrec : Sound D r recur) {l : List (Match ν)} {r' : Results ν}
    (he : e.space.Within D)
    (hl : ∀ m ∈ l, ∀ v, groundResult? m = some v → Reached D r s a e.space v)
    (hr : ReachedAll D r s a r'.atoms e.space) :
    Yields (Along D r) (applyGround recur l r') e fun x => ReachedAll D r s a x.2.atoms := by
  induction l generalizing r' e with
  | nil => exact .pure he hr
  | cons m l ih =>
    unfold applyGround
    split
    · exact .pure he hr
    · split
      · exact ih he (fun m hm => hl m (by simp [hm])) hr
      · rename_i v hv
        refine (hrec.reached he (hl m (by simp) v hv)).bind fun found e' hcourse hfound => ?_
        refine (ih hcourse.within ?_ (reachedAll_extend hcourse hr hfound)).bind fun _ _ hcourse h => ?_
        · exact fun m hm v hv => (hl m (by simp [hm]) v hv).later hcourse
        · exact .pure hcourse.within h

theorem yields_applyGeneral (hrec : Sound D r recur) {b : Atom ν} {applied : List String}
    {l : List (Match ν)} {r' : Results ν} (he : e.space.Within D)
    (hl : ∀ m ∈ l, ∀ v, generalResult? b m = some v → Reached D r s a e.space v)
    (hr : ReachedAll D r s a r'.atoms e.space) :
    Yields (Along D r) (applyGeneral recur b applied l r') e fun x => ReachedAll D r s a x.atoms := by
  induction l generalizing r' e with
  | nil => exact .pure he hr
  | cons m l ih =>
    have hrest : ∀ m ∈ l, ∀ v, generalResult? b m = some v → Reached D r s a e.space v :=
      fun m hm => hl m (by simp [hm])
    unfold applyGeneral
    split
    · exact .pure he hr
    · split
      · exact ih he hrest hr
      · split
        · exact ih he hrest hr
        · rename_i v hv
          refine (hrec.reached he (hl m (by simp) v hv)).bind fun found e' hcourse hfound => ?_
          refine ih hcourse.within ?_ (reachedAll_extend hcourse hr hfound)
          exact fun m hm v hv => (hrest m hm v hv).later hcourse

/-- Evaluating arguments derives the expression with their values in their places. `p` are the
children before them. -/
theorem yields_argumentValues (hD : Atom.Ample D) (hrec : Sound D r recur) {p l : List (Atom ν)}
    (he : e.space.Within D) (h : Reached D r s a e.space (.expr (p ++ l))) :
    Yields (Along D r) (argumentValues recur l) e fun x t =>
      ∀ values, x = some values → Reached D r s a t (.expr (p ++ values)) := by
  induction l generalizing p e with
  | nil => exact .pure he (by rintro _ ⟨⟩; exact h)
  | cons b l ih =>
    have hb := h.owned.part hD.faithful (a := b) (by simp)
    unfold argumentValues
    refine (hrec b e he hb).bind fun found e' hcourse hfound => ?_
    split
    · rename_i v
      have hchild := h.child hD hcourse (hfound v (by simp))
      rw [List.append_cons] at hchild
      refine (ih hcourse.within hchild).bind fun x e'' hcourse hx => .pure hcourse.within ?_
      intro values hvalues
      obtain ⟨rest, rfl, rfl⟩ := Option.map_eq_some_iff.1 hvalues
      rw [List.append_cons]
      exact hx rest rfl
    · exact .pure hcourse.within (by rintro _ ⟨⟩)

theorem yields_evalChildren (hD : Atom.Ample D) (hrec : Sound D r recur) {p l : List (Atom ν)}
    (he : e.space.Within D) (h : Reached D r s a e.space (.expr (p ++ l))) :
    Yields (Along D r) (evalChildren recur l) e fun values t => Reached D r s a t (.expr (p ++ values)) := by
  induction l generalizing p e with
  | nil => exact .pure he h
  | cons b l ih =>
    have hb := h.owned.part hD.faithful (a := b) (by simp)
    unfold evalChildren
    refine (hrec b e he hb).bind fun found e' hcourse hfound => ?_
    -- what comes in the place of the child is derived from it
    have hchild {c : Atom ν} (hc : Reached D r e.space b e'.space c) :
        Yields (Along D r) (do return c :: (← evalChildren recur l)) e' fun values t =>
          Reached D r s a t (.expr (p ++ values)) := by
      have h := h.child hD hcourse hc
      rw [List.append_cons] at h
      refine (ih hcourse.within h).bind fun values e'' hcourse hvalues => .pure hcourse.within ?_
      rw [List.append_cons]
      exact hvalues
    apply hchild
    split
    · rename_i v
      split
      · exact .wait hcourse hb
      · exact hfound v (by simp)
    · exact .wait hcourse hb

/-- A call derives its result from the expression that it stands for. -/
theorem yields_call (hD : Atom.Ample D) {head : Atom ν} {name : String} {f : Native ν}
    {args : List (Atom ν)} (hf : r.resolve? head = some (name, f)) (htame : f.Tame D)
    (he : e.space.Within D) (h : Reached D r s a e.space (.expr (head :: args))) :
    Yields (Along D r) (call f args) e fun x t => ∀ out, x = .ok out → Reached D r s a t out := by
  have hargs : ∀ b ∈ args, b ∈ D := fun b hb => hD.faithful.part h.owned.1 (by simp [hb])
  have hrenamings := Space.Steps.renamings_le (htame.abides args e.space)
  refine ⟨⟨.single (.call hf args e.space), htame.within hargs he, hrenamings⟩, fun out hout => ?_⟩
  obtain ⟨houtD, hvars⟩ := htame.result hargs he hout
  refine h.trans ⟨.native hf (Prod.ext hout rfl), houtD, fun x hx => ?_⟩
  have hx : x ∈ (Atom.expr (head :: args)).vars := by
    rw [Atom.vars_expr, List.flatMap_cons, ← Atom.vars_expr]
    exact List.mem_append_right _ (hvars x hx)
  exact (h.owned.2 x hx).mono hrenamings

variable {ev : Evaluator ν}

theorem yields_applyNative (hD : Atom.Ample D) (hregistry : ev.registry.Tame D)
    (hrec : Sound D ev.registry recur) {head : Atom ν} {args : List (Atom ν)} {r' : Results ν}
    (he : e.space.Within D) (h : Reached D ev.registry s a e.space (.expr (head :: args)))
    (hr : ReachedAll D ev.registry s a r'.atoms e.space) :
    Yields (Along D ev.registry) (applyNative recur ev head args r') e fun x =>
      ReachedAll D ev.registry s a x.atoms := by
  unfold applyNative
  split
  · exact .pure he hr
  · rename_i name f hf
    refine (yields_argumentValues (p := [head]) hD hrec he h).bind fun x e₁ h₁ hx => ?_
    have hr₁ := hr.later h₁
    split
    · exact .pure h₁.within hr₁
    · rename_i values
      have hcall := yields_call hD hf (hregistry head name f hf) h₁.within (hx values rfl)
      refine hcall.bind fun y e₂ h₂ hy => ?_
      split
      · exact .pure h₂.within (hr₁.later h₂)
      · rename_i out
        refine (hrec.reached h₂.within (hy out rfl)).bind fun found e₃ h₃ hfound => ?_
        exact .pure h₃.within (reachedAll_extend (h₂.trans h₃) hr₁ hfound)

omit [Scalar ν] in
theorem groundResult?_eq_some {m : Match ν} {v : Atom ν} (h : groundResult? m = some v) :
    m.bindings.resolve? "__result" = some v := by
  unfold groundResult? at h
  split at h
  · cases h
  · exact h

theorem yields_reduce (hD : Atom.Ample D) (hregistry : ev.registry.Tame D)
    (hrec : Sound D ev.registry recur) {head : Atom ν} {args : List (Atom ν)} (he : e.space.Within D)
    (h : Reached D ev.registry s a e.space (.expr (head :: args))) :
    Yields (Along D ev.registry) (reduce recur ev head args) e fun x =>
      ReachedAll D ev.registry s a x.atoms := by
  unfold reduce
  refine (yields_arityAgrees he head _).bind fun agrees e₁ h₁ _ => ?_
  have hself := h.later h₁
  split
  · refine (yields_ask h₁.within _).bind fun ground e₂ h₂ hground => ?_
    refine (yields_applyGround (s := s) (a := a) hrec h₂.within (fun m hm v hv => ?_)
      (fun _ h => by cases h)).bind fun x e₃ h₃ hx => ?_
    · exact hself.trans (reached_of_result hD h₁.within h₂ hself.owned (hground m hm)
        (groundResult?_eq_some hv))
    have hself := (hself.later h₂).later h₃
    refine (yields_ask h₃.within _).bind fun general e₄ h₄ hgeneral => ?_
    refine (yields_applyGeneral hrec h₄.within (fun m hm v hv => ?_) (hx.later h₄)).bind
      fun r' e₅ h₅ hr => ?_
    · exact hself.trans (reached_of_template hD h₃.within h₄ hself.owned (hgeneral m hm) hv)
    exact yields_applyNative hD hregistry hrec h₅.within ((hself.later h₄).later h₅) hr
  · exact .pure h₁.within fun _ h => by cases h

theorem sound_step (hD : Atom.Ample D) (hregistry : ev.registry.Tame D)
    (hrec : Sound D ev.registry recur) : Sound D ev.registry (step recur ev) := by
  intro a e he ha
  have hself : Reached D ev.registry e.space a e.space a := .wait (.refl he) ha
  unfold step
  split
  · rename_i head args
    refine Yields.bind (m := get) (P := fun _ _ => True) ⟨.refl he, trivial⟩ fun st e₁ h₁ _ => ?_
    have hself := hself.later h₁
    split
    · exact .pure h₁.within (List.forall_mem_singleton.2 hself)
    · refine (yields_path h₁.within _).bind fun _ e₂ h₂ _ => ?_
      have hself := hself.later h₂
      refine (yields_reduce hD hregistry hrec h₂.within hself).bind fun r' e₃ h₃ hr => ?_
      -- both ways out take the expression off the path
      have hleave (results : List (Atom ν)) (e₄ : Evaluation ν) (h₄ : Course D ev.registry e₃.space e₄.space)
          (h : ReachedAll D ev.registry e.space (.expr (head :: args)) results e₄.space) :
          Yields (Along D ev.registry) (do
            modify fun st : Evaluation ν =>
              { st with path := st.path.erase (Atom.expr (head :: args)).key }
            return results) e₄ (ReachedAll D ev.registry e.space (.expr (head :: args))) :=
        (yields_path h₄.within (·.erase _)).bind fun _ e₅ h₅ _ => .pure h₅.within (h.later h₅)
      dsimp only
      split
      · refine (yields_evalChildren (p := []) hD hrec h₃.within (hself.later h₃)).bind
          fun children e₄ h₄ hchildren => ?_
        exact hleave [.expr children] e₄ h₄ (List.forall_mem_singleton.2 hchildren)
      · exact hleave r'.atoms e₃ (.refl h₃.within) hr
  · exact .pure he (List.forall_mem_singleton.2 hself)

theorem sound_evalPath (hD : Atom.Ample D) (hregistry : ev.registry.Tame D) (depth : Nat) :
    Sound D ev.registry (ev.evalPath depth) := by
  induction depth with
  | zero =>
    intro a e he ha
    have hself : Reached D ev.registry e.space a e.space a := .wait (.refl he) ha
    exact .pure he (List.forall_mem_singleton.2 hself)
  | succ depth ih => exact sound_step hD hregistry ih

end

/-! ## Results -/

/-- A space with the rule `(= (twice $x) (pair $x $x))`. -/
def twice : Space (Exact fun _ => 1) :=
  ((Space.empty default).add (.expr [.symbol "=", .expr [.symbol "twice", .var "x"],
    .expr [.symbol "pair", .var "x", .var "x"]])).2

/-- An evaluator whose only code makes expressions of arguments. -/
def pairing : Evaluator (Exact fun _ => 1) where
  config := default
  registry := { functions := .ofList [("pair", Native.compose)], code := fun _ => none }

theorem eq_compose_of_resolve? {head : Atom (Exact fun _ => 1)} {name : String}
    {f : Native (Exact fun _ => 1)} (h : pairing.registry.resolve? head = some (name, f)) :
    f = Native.compose ∧ head = .symbol "pair" := by
  cases head with
  | symbol symbol =>
    obtain ⟨g, hg, e⟩ := Option.map_eq_some_iff.1 h
    obtain ⟨rfl, rfl⟩ := Prod.mk.inj e
    obtain ⟨rfl, rfl⟩ := Prod.mk.inj (List.mem_singleton.1 (Table.mem_of_get?_ofList hg))
    exact ⟨rfl, rfl⟩
  | _ => cases h

theorem pairing_tame : pairing.registry.Tame {a | Atom.Plain a} := by
  intro head name f hf
  obtain ⟨rfl, -⟩ := eq_compose_of_resolve? hf
  refine ⟨Native.abides_pure _, fun _ hs => hs, fun hargs _ h => ?_⟩
  cases h
  exact ⟨.expr hargs, fun x hx => hx⟩

theorem mem_twice {key : String} {a : Atom (Exact fun _ => 1)} (h : twice.atom? key = some a) :
    (∃ name ∈ Space.protectedNames, a = .symbol name) ∨
      a = .expr [.symbol "=", .expr [.symbol "twice", .var "x"],
        .expr [.symbol "pair", .var "x", .var "x"]] := by
  have hatoms : twice.slots.values.map Slot.atom = Space.protectedNames.map .symbol ++
    [.expr [.symbol "=", .expr [.symbol "twice", .var "x"],
      .expr [.symbol "pair", .var "x", .var "x"]]] := by rfl
  obtain ⟨slot, hslot, rfl⟩ := Option.map_eq_some_iff.1 h
  have hmem := List.mem_map_of_mem (f := Slot.atom) (Table.mem_values_of_get? hslot)
  rw [hatoms] at hmem
  simpa [eq_comm] using hmem

theorem twice_within : twice.Within {a | Atom.Plain a} := by
  intro key a ha
  have hnames : ∀ name ∈ Space.protectedNames, Atom.isName name = true := by decide
  rcases mem_twice ha with ⟨name, hname, rfl⟩ | rfl
  · exact .symbol (hnames name hname)
  · show Atom.Plain _
    decide

end Evaluator

end Atomspace
