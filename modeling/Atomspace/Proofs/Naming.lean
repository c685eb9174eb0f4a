import Atomspace.Proofs.Names
import Atomspace.Proofs.Soundness
/-!
# Queries under other names

As long as keys tell the atoms of a set apart after a renaming just as they do before (`Naming`),
unification and queries do not depend on the names of variables: what they make of renamed atoms is what
they make of the atoms, renamed (`unify_mapNames`, `Space.Mirroring.query`). This holds of two spaces that mirror
each other under the other names, and so of one space that has nothing in it that shows the names
(`Space.Unmoved`).
-/

namespace Atomspace

variable {ν : Type} [Scalar ν]

namespace Atom

/-- A set of atoms to compute with, and other names for the variables in them. The names are kept apart,
and keys of renamed atoms tell as much as keys of the atoms. -/
structure Naming (D : Set (Atom ν)) (f : String → String) : Prop where
  /-- The set may lack some of the internal variables. -/
  ample : ∃ C, Ample C ∧ D ⊆ C
  faithful : Faithful D
  expr : ∀ {l : List (Atom ν)}, (∀ a ∈ l, a ∈ D) → Atom.expr l ∈ D
  equals : symbol "=" ∈ D
  result : var "__result" ∈ D
  result_eq : f "__result" = "__result"
  inj : ∀ x y, var x ∈ D → var y ∈ D → f x = f y → x = y
  key_iff : ∀ {a b : Atom ν}, a ∈ D → b ∈ D → ((a.mapNames f).key = (b.mapNames f).key ↔ a.key = b.key)

variable {D : Set (Atom ν)} {f : String → String}

theorem Naming.beq (h : Naming D f) {a b : Atom ν} (ha : a ∈ D) (hb : b ∈ D) :
    (a.mapNames f == b.mapNames f) = (a == b) := by
  rw [Bool.eq_iff_iff, beq_iff, beq_iff, kind_mapNames, kind_mapNames, h.key_iff ha hb]

theorem Naming.beq_key (h : Naming D f) {a b : Atom ν} (ha : a ∈ D) (hb : b ∈ D) :
    ((a.mapNames f).key == (b.mapNames f).key) = (a.key == b.key) := by
  rw [Bool.eq_iff_iff, beq_iff_eq, beq_iff_eq, h.key_iff ha hb]

theorem Naming.contains_map (h : Naming D f) {l : List String} {x : String} (hl : ∀ y ∈ l, var y ∈ D)
    (hx : var x ∈ D) : (l.map f).contains (f x) = l.contains x := by
  rw [Bool.eq_iff_iff, List.contains_iff_mem, List.contains_iff_mem]
  constructor
  · intro hmem
    obtain ⟨y, hy, e⟩ := List.mem_map.1 hmem
    rwa [← h.inj y x (hl y hy) hx e]
  · exact List.mem_map_of_mem

end Atom

/-! ## Unification -/

namespace Unifier

variable {D : Set (Atom ν)} {f : String → String} {u w : Unifier ν}

/-- The unification with other names for all variables. -/
def mapNames (f : String → String) (u : Unifier ν) : Unifier ν where
  pending := u.pending.map fun p => (p.1.mapNames f, p.2.mapNames f)
  bindings := u.bindings.mapNames f
  reopened := u.reopened.map f

/-- All that is bound, pending or reopened is in the set. -/
structure Scoped (D : Set (Atom ν)) (u : Unifier ν) : Prop where
  bindings : u.bindings.Scoped D
  pair : ∀ p ∈ u.pending, p.1 ∈ D ∧ p.2 ∈ D
  reopened : ∀ x ∈ u.reopened, .var x ∈ D

omit [Scalar ν] in
theorem Assigned.scoped {x : String} {v : Atom ν} (h : Assigned u x v (some w)) (hu : u.Scoped D)
    (hx : .var x ∈ D) (hv : v ∈ D) : w.Scoped D := by
  cases h with
  | same => exact hu
  | free => exact ⟨hu.bindings.insert hx hv, hu.pair, hu.reopened⟩
  | reopened _ hold =>
    exact ⟨hu.bindings, List.forall_mem_cons.2 ⟨⟨hu.bindings.within _ _ hold, hv⟩, hu.pair⟩,
      List.forall_mem_cons.2 ⟨hx, hu.reopened⟩⟩

theorem Scoped.step (hu : u.Scoped D) (hD : Atom.Faithful D) (h : u.step = some w) : w.Scoped D := by
  cases hp : u.pending with
  | nil =>
    rw [step_of_done hp] at h
    cases h
    exact hu
  | cons p rest =>
    obtain ⟨l, r⟩ := p
    have hs := settled_step hp
    rw [h] at hs
    obtain ⟨⟨hl, hr⟩, hrest⟩ := List.forall_mem_cons.1 (hp ▸ hu.pair)
    have hl := hu.bindings.within.subst_mem hD hl
    have hr := hu.bindings.within.subst_mem hD hr
    have hkept : Scoped D { u with pending := rest } := ⟨hu.bindings, hrest, hu.reopened⟩
    generalize u.bindings.subst l = left at hs hl
    generalize u.bindings.subst r = right at hs hr
    cases hs with
    | equal => exact hkept
    | left _ ha => exact ha.scoped hkept hl (hkept.bindings.within.subst_mem hD hr)
    | right _ ha => exact ha.scoped hkept hr (hkept.bindings.within.subst_mem hD hl)
    | split =>
      refine ⟨hu.bindings, List.forall_mem_append.2 ⟨fun p hp => ?_, hrest⟩, hu.reopened⟩
      obtain ⟨h1, h2⟩ := List.of_mem_zip hp
      exact ⟨hD.part hl h1, hD.part hr h2⟩

variable (hf : Atom.Naming D f)
include hf

theorem bindTo_mapNames (hu : u.Scoped D) {x : String} {v : Atom ν} (hx : .var x ∈ D) (hv : v ∈ D) :
    assign.bindTo (u.mapNames f) (f x) (v.mapNames f) = (assign.bindTo u x v).map (mapNames f) := by
  unfold assign.bindTo
  rw [Atom.vars_mapNames, hf.contains_map (fun y hy => hf.faithful.var_mem hv hy) hx]
  split
  · rfl
  · have hfind : (u.mapNames f).bindings.find? (f x) = (u.bindings.find? x).map (Atom.mapNames f) :=
      Bindings.find?_mapNames hf.inj hu.bindings hx
    rw [hfind]
    cases u.bindings.find? x with
    | some old =>
      show (if (u.reopened.map f).contains (f x) = true then none else _) = _
      rw [hf.contains_map hu.reopened hx]
      simp only
      split <;> rfl
    | none =>
      show some { u.mapNames f with bindings := (u.bindings.mapNames f).insert (f x) (v.mapNames f) } = _
      rw [Bindings.insert_mapNames hf.inj hu.bindings hx]
      rfl

theorem assign_mapNames (hu : u.Scoped D) {x : String} {a : Atom ν} (hx : .var x ∈ D) (ha : a ∈ D) :
    (u.mapNames f).assign (f x) (a.mapNames f) = (u.assign x a).map (mapNames f) := by
  have hsubst : (u.mapNames f).bindings.subst (a.mapNames f) = (u.bindings.subst a).mapNames f :=
    Bindings.subst_mapNames hf.inj hf.faithful hu.bindings ha
  have hv := hu.bindings.within.subst_mem hf.faithful ha
  unfold assign
  rw [hsubst]
  have hbind := bindTo_mapNames hf hu hx hv
  generalize u.bindings.subst a = v at hv hbind
  cases v with
  | var y =>
    simp only [Atom.mapNames_var]
    by_cases hyx : y = x
    · rw [if_pos hyx, if_pos (congrArg f hyx)]
      rfl
    · rw [if_neg hyx, if_neg fun e => hyx (hf.inj y x hv hx e)]
      exact hbind
  | _ => exact hbind

theorem step_mapNames (hu : u.Scoped D) : (u.mapNames f).step = u.step.map (mapNames f) := by
  have hD := hf.faithful
  cases hp : u.pending with
  | nil =>
    rw [step_of_done hp, step_of_done (show (u.mapNames f).pending = [] by rw [mapNames, hp]; rfl)]
    rfl
  | cons p rest =>
    obtain ⟨l, r⟩ := p
    obtain ⟨⟨hl, hr⟩, hrest⟩ := List.forall_mem_cons.1 (hp ▸ hu.pair)
    have hpending : (u.mapNames f).pending = (l.mapNames f, r.mapNames f) ::
        rest.map fun p => (p.1.mapNames f, p.2.mapNames f) := by
      rw [mapNames, hp]
      rfl
    have hsubst {a : Atom ν} (ha : a ∈ D) :
        (u.mapNames f).bindings.subst (a.mapNames f) = (u.bindings.subst a).mapNames f :=
      Bindings.subst_mapNames hf.inj hD hu.bindings ha
    have hkept : Scoped D { u with pending := rest } := ⟨hu.bindings, hrest, hu.reopened⟩
    have hl' := hu.bindings.within.subst_mem hD hl
    have hr' := hu.bindings.within.subst_mem hD hr
    unfold step
    rw [hpending, hp]
    simp only [hsubst hl, hsubst hr, hf.beq hl' hr']
    split
    · rfl
    · generalize u.bindings.subst l = left at hl'
      generalize u.bindings.subst r = right at hr'
      cases left with
      | var x => exact assign_mapNames hf hkept hl' hr'
      | expr l =>
        cases right with
        | var x => exact assign_mapNames hf hkept hr' hl'
        | expr m =>
          simp only [Atom.mapNames_expr, List.length_map]
          split
          · refine congrArg some ?_
            simp only [mapNames, List.map_append, List.zip_map]
            rfl
          · rfl
        | _ => simp [Atom.mapNames]
      | _ =>
        cases right with
        | var x => exact assign_mapNames hf hkept hr' hl'
        | _ => simp [Atom.mapNames]

theorem run_mapNames (h : u.Halts) (hu : u.Scoped D) :
    (u.mapNames f).run = u.run.map (Bindings.mapNames f) := by
  induction h with
  | @done u hp =>
    rw [run_of_done hp, run_of_done (show (u.mapNames f).pending = [] by rw [mapNames, hp]; rfl)]
    rfl
  | @fail u hfail =>
    have hstep := step_mapNames hf hu
    rw [hfail] at hstep
    have hpending {u : Unifier ν} (h : u.step = none) : u.pending ≠ [] := fun hp => by
      rw [step_of_done hp] at h
      cases h
    rw [run_of_fail (hpending hfail) hfail, run_of_fail (hpending hstep) hstep]
    rfl
  | @next u w hnext hw ih =>
    have hstep := step_mapNames hf hu
    rw [hnext] at hstep
    by_cases hp : u.pending = []
    · rw [run_of_done hp, run_of_done (show (u.mapNames f).pending = [] by rw [mapNames, hp]; rfl)]
      rfl
    · rw [run_of_step hp hnext, run_of_step (by simpa [mapNames] using hp) hstep]
      exact ih (hu.step hf.faithful hnext)

end Unifier

theorem unify_mapNames {D : Set (Atom ν)} {f : String → String} (hf : Atom.Naming D f) {l r : Atom ν} (hl : l ∈ D)
    (hr : r ∈ D) : unify (l.mapNames f) (r.mapNames f) ∅ = (unify l r ∅).map (Bindings.mapNames f) :=
  Unifier.run_mapNames hf (Unifier.halts_of_unnested Bindings.acyclic_empty.unnested l r)
    ⟨Bindings.scoped_empty, List.forall_mem_singleton.2 ⟨hl, hr⟩, nofun⟩

theorem scoped_of_unify {D : Set (Atom ν)} (hD : Atom.Faithful D) {l r : Atom ν} (hl : l ∈ D) (hr : r ∈ D)
    {b : Bindings ν} (h : unify l r ∅ = some b) : b.Scoped D := by
  have hrun {u : Unifier ν} (hu : u.Halts) (hs : u.Scoped D) (h : u.run = some b) : b.Scoped D := by
    induction hu with
    | done hp =>
      rw [Unifier.run_of_done hp] at h
      cases h
      exact hs.bindings
    | @fail u hfail =>
      by_cases hp : u.pending = []
      · rw [Unifier.step_of_done hp] at hfail
        cases hfail
      · rw [Unifier.run_of_fail hp hfail] at h
        cases h
    | @next u w hnext _ ih =>
      by_cases hp : u.pending = []
      · rw [Unifier.run_of_done hp] at h
        cases h
        exact hs.bindings
      · rw [Unifier.run_of_step hp hnext] at h
        exact ih (hs.step hD hnext) h
  exact hrun (Unifier.halts_of_unnested Bindings.acyclic_empty.unnested l r)
    ⟨Bindings.scoped_empty, List.forall_mem_singleton.2 ⟨hl, hr⟩, nofun⟩ h

/-! ## Queries -/

/-- The match with other names for the variables of the pattern. -/
def Match.mapNames (f : String → String) (m : Match ν) : Match ν :=
  { m with bindings := m.bindings.mapNames f }

namespace Space

variable {D : Set (Atom ν)} {f : String → String} {s t : Space ν} {p : Atom ν}

/-- The other names leave the space alone: no copy of a stored atom changes, and what is looked up by a key
does not depend on the names in it. -/
structure Unmoved (D : Set (Atom ν)) (f : String → String) (s : Space ν) : Prop where
  copies : ∀ key a, s.atom? key = some a → ∀ n, a.rename n ∈ D ∧ ∀ x ∈ (a.rename n).names, f x = x
  heads : ∀ head ∈ D, head.isVar = false → s.bucket (head.mapNames f).key = s.bucket head.key
  lists : ∀ l, .list l ∈ D → s.contains (Atom.list l).key = true ∨
    s.contains ((Atom.list l).mapNames f).key = true → (Atom.list l).mapNames f = .list l

omit [Scalar ν] in
theorem bucket_of_read (h : Read s t) (head : String) : t.bucket head = s.bucket head := by
  rw [bucket, h.index]
  rfl

theorem Unmoved.read (h : s.Unmoved D f) (hread : Read s t) : t.Unmoved D f where
  copies key a ha := h.copies key a (hread.revalued.atom? key ▸ ha)
  heads head hhead hvar := by
    rw [bucket_of_read hread, bucket_of_read hread]
    exact h.heads head hhead hvar
  lists l hl hstored := by
    simp only [contains_eq, hread.revalued.atom?] at hstored
    exact h.lists l hl (by simpa only [contains_eq] using hstored)

/-- Where neither the index nor the store tells a pattern from the renamed one, both have the same candidates. -/
theorem candidates_mapNames (hD : Atom.Faithful D)
    (heads : ∀ head ∈ D, head.isVar = false → s.bucket (head.mapNames f).key = s.bucket head.key)
    (lists : ∀ l, .list l ∈ D → s.contains (Atom.list l).key = true ∨
      s.contains ((Atom.list l).mapNames f).key = true → (Atom.list l).mapNames f = .list l)
    (hp : p ∈ D) : s.candidates (p.mapNames f) = s.candidates p := by
  cases p with
  | var x => rfl
  | expr l =>
    cases l with
    | nil => rfl
    | cons head l =>
      have hbucket := heads head (hD.part hp List.mem_cons_self)
      rw [Atom.mapNames_expr, List.map_cons]
      cases head with
      | var x => rfl
      | expr m =>
        rw [Atom.mapNames_expr] at hbucket ⊢
        exact congrArg (· ++ s.bucket openHead) (hbucket rfl)
      | list m =>
        rw [Atom.mapNames_list] at hbucket ⊢
        exact congrArg (· ++ s.bucket openHead) (hbucket rfl)
      | _ => rfl
  | list l =>
    by_cases hstored : s.contains (Atom.list l).key = true ∨ s.contains ((Atom.list l).mapNames f).key = true
    · rw [lists l hp hstored]
    · rw [not_or, Bool.not_eq_true, Bool.not_eq_true] at hstored
      rw [Atom.mapNames_list] at hstored ⊢
      simp only [Space.candidates, hstored, Bool.false_eq_true, if_false]
  | _ => rfl

omit [Scalar ν] in
theorem fits_mapNames (p : Atom ν) (f : String → String) (a : Atom ν) : fits (p.mapNames f) a = fits p a := by
  cases p with
  | expr l => simp [fits, Atom.children?]
  | list l => simp [fits, Atom.children?]
  | _ => rfl

/-- Related spaces hold the same, and their next copies of it are the same but for the names. They stay
related when both are read alike. -/
structure Mirroring (D : Set (Atom ν)) (f : String → String) (R : Space ν → Space ν → Prop) : Prop where
  fact? {s t : Space ν} : R s t → ∀ key, t.fact? key = s.fact? key
  config {s t : Space ν} : R s t → t.config = s.config
  candidates {s t : Space ν} {p : Atom ν} : R s t → p ∈ D → t.candidates (p.mapNames f) = s.candidates p
  copy {s t : Space ν} {key : String} {a : Atom ν} : R s t → s.atom? key = some a →
    a.rename s.renamings ∈ D ∧ (a.rename s.renamings).mapNames f = a.rename t.renamings
  refresh {s t : Space ν} (a : Atom ν) : R s t → R (s.refresh a).2 (t.refresh a).2
  touch {s t : Space ν} (key : String) (amount : ν) : R s t → R (s.touch key amount) (t.touch key amount)

variable (hf : Atom.Naming D f)
include hf

namespace Mirroring

variable {R : Space ν → Space ν → Prop} (hR : Mirroring D f R)
include hR

theorem examine (hst : R s t) (hp : p ∈ D) (key : String) :
    (∀ m ∈ (s.examine p key).1, m.bindings.Scoped D) ∧
      (t.examine (p.mapNames f) key).1 = (s.examine p key).1.map (Match.mapNames f) ∧
        R (s.examine p key).2 (t.examine (p.mapNames f) key).2 := by
  cases hfact : s.fact? key with
  | none =>
    have hfree {u : Space ν} (h : u.fact? key = none) (q : Atom ν) : u.examine q key = (none, u) := by
      unfold Space.examine
      rw [Option.map_eq_none_iff.1 h]
    rw [hfree hfact, hfree ((hR.fact? hst key).trans hfact)]
    exact ⟨nofun, rfl, hst⟩
  | some fact =>
    obtain ⟨a, truth⟩ := fact
    obtain ⟨hcopy, hsame⟩ := hR.copy hst (atom?_of_fact? hfact)
    rw [examine_of_fact? hfact, examine_of_fact? ((hR.fact? hst key).trans hfact), hR.config hst, fits_mapNames,
      refresh_fst, refresh_fst, ← hsame, unify_mapNames hf hp hcopy]
    split
    · exact ⟨nofun, rfl, hst⟩
    · cases hunify : unify p (a.rename s.renamings) ∅ with
      | none => exact ⟨nofun, rfl, hR.refresh a hst⟩
      | some b =>
        have hrefresh := hR.refresh a hst
        refine ⟨?_, rfl, ?_⟩
        · rintro _ ⟨⟩
          exact scoped_of_unify hf.faithful hp hcopy hunify
        · simp only [Option.map_some, hR.config hrefresh]
          exact hR.touch key _ hrefresh

theorem examineAll (hp : p ∈ D) (keys : List String) : ∀ {s t : Space ν}, R s t →
    (∀ m ∈ (s.examineAll p keys).1, m.bindings.Scoped D) ∧
      (t.examineAll (p.mapNames f) keys).1 = (s.examineAll p keys).1.map (Match.mapNames f) ∧
        R (s.examineAll p keys).2 (t.examineAll (p.mapNames f) keys).2 := by
  induction keys with
  | nil => exact fun hst => ⟨nofun, rfl, hst⟩
  | cons key keys ih =>
    intro s t hst
    obtain ⟨hscoped, hfound, hnext⟩ := hR.examine hf hst hp key
    obtain ⟨hscopedRest, hrest, hlast⟩ := ih hnext
    unfold Space.examineAll
    refine ⟨List.forall_mem_append.2 ⟨fun m hm => hscoped m (Option.mem_toList.1 hm), hscopedRest⟩, ?_, hlast⟩
    simp only [hfound, hrest, List.map_append, Option.toList_map]

/-- In related spaces a query for a renamed pattern finds the same, with renamed bindings. -/
theorem query (hst : R s t) (hp : p ∈ D) : (∀ m ∈ (s.query p).1, m.bindings.Scoped D) ∧
    (t.query (p.mapNames f)).1 = (s.query p).1.map (Match.mapNames f) ∧
      R (s.query p).2 (t.query (p.mapNames f)).2 := by
  obtain ⟨hscoped, hfound, hspaces⟩ := hR.examineAll hf hp ((s.candidates p).take s.config.maxCandidates) hst
  unfold Space.query
  rw [hR.candidates hst hp, hR.config hst]
  refine ⟨fun m hm => hscoped m (List.mem_mergeSort.1 (List.mem_of_mem_take hm)), ?_, hspaces⟩
  dsimp only
  rw [hfound, hR.config hspaces, List.map_take, List.map_mergeSort]
  exact fun _ _ _ _ => rfl

end Mirroring

/-! ### A space that takes no notice of the names -/

/-- The second space is the first one, and takes no notice of the names. -/
def Unnoticed (D : Set (Atom ν)) (f : String → String) (s t : Space ν) : Prop := t = s ∧ s.Unmoved D f

omit hf in
theorem mirroring_unnoticed (hD : Atom.Faithful D) : Mirroring D f (Unnoticed D f) where
  fact? := by
    rintro s t ⟨rfl, -⟩ key
    rfl
  config := by
    rintro s t ⟨rfl, -⟩
    rfl
  candidates := by
    rintro s t p ⟨rfl, hs⟩ hp
    exact candidates_mapNames hD hs.heads hs.lists hp
  copy := by
    rintro s t key a ⟨rfl, hs⟩ ha
    obtain ⟨hmem, hsame⟩ := hs.copies key a ha t.renamings
    exact ⟨hmem, Atom.mapNames_eq_self hsame⟩
  refresh := by
    rintro s t a ⟨rfl, hs⟩
    exact ⟨rfl, hs.read (t.read_refresh a)⟩
  touch := by
    rintro s t key amount ⟨rfl, hs⟩
    exact ⟨rfl, hs.read (t.read_touch key amount)⟩

/-! ## Rules -/

theorem Unmoved.copy (h : s.Unmoved D f) {key : String} {l : List (Atom ν)} (hl : s.atom? key = some (.expr l))
    (head : Atom ν) {a : Atom ν} (ha : a ∈ l) (n : Nat) :
    Atom.copy head n a ∈ D ∧ ∀ x ∈ (Atom.copy head n a).names, f x = x := by
  obtain ⟨hmem, hfixed⟩ := h.copies key _ hl n
  rw [Atom.rename_expr] at hmem hfixed
  have hpart := List.mem_map_of_mem (f := Atom.rename n) ha
  have hmem := hf.faithful.part hmem hpart
  have hfixed (x) (hx : x ∈ (a.rename n).names) : f x = x :=
    hfixed x (by rw [Atom.names_expr]; exact Atom.names_of_mem hpart hx)
  obtain ⟨g, hcopy, hg⟩ := Atom.copy_eq_bind_rename head a n
  rw [hcopy]
  constructor
  · refine hf.faithful.bind hmem fun z hz => ?_
    rcases hg z with hz' | hz' <;> rw [hz']
    · exact hf.equals
    · exact hf.faithful.var_mem hmem hz
  · intro x hx
    rcases Atom.mem_names_bind hx with hx | ⟨z, hz, hx⟩
    · exact hfixed x (Atom.mem_names_of_mem_listNames hx)
    · rcases hg z with hz' | hz' <;> rw [hz'] at hx
      · cases hx
      · obtain rfl := List.mem_singleton.1 hx
        exact hfixed x (Atom.mem_names_of_mem_vars hz)

/-- The sides of the rules that a query finds do not change. -/
theorem Unmoved.sides (h : s.Unmoved D f) {m : Match ν}
    (hm : m ∈ (s.query (.expr [.symbol "=", .var "__pattern", .var "__template"])).1) {left template : Atom ν}
    (hleft : m.bindings.resolve? "__pattern" = some left)
    (htemplate : m.bindings.resolve? "__template" = some template) :
    (left ∈ D ∧ left.mapNames f = left) ∧ template ∈ D ∧ template.mapNames f = template := by
  obtain ⟨C, hC, hDC⟩ := hf.ample
  have hfound := found_query hm
  obtain ⟨l, hl⟩ := hfound.exists_expr
  obtain ⟨hheld, -, -, -, hunified⟩ := hfound
  have hatom := atom?_of_fact? hheld
  rw [hl] at hunified hatom
  have hinternal {x : String} (hx : x ∈ Atom.internalNames) (y : String) (k : Nat) : x ≠ Atom.numbered y k := by
    rintro rfl
    exact Atom.not_mem_internalNames_numbered y k hx
  obtain ⟨head, a, b, rfl, -, rfl, rfl⟩ := eq_copy_of_unify hC.faithful
    (hC.equation (hC.internal "__pattern" (by decide)) (hC.internal "__template" (by decide)))
    (hDC (h.copies _ _ hatom _).1) hunified hleft htemplate (hinternal (by decide)) (hinternal (by decide))
    (by decide)
  have hcopy {c : Atom ν} (hc : c ∈ [head, a, b]) {n : Nat} :
      Atom.copy head n c ∈ D ∧ (Atom.copy head n c).mapNames f = Atom.copy head n c :=
    (h.copy hf hatom head hc n).imp_right Atom.mapNames_eq_self
  exact ⟨hcopy (by simp), hcopy (by simp)⟩

end Space

end Atomspace
