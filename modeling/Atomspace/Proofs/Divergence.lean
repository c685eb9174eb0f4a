import Atomspace.Proofs.MostGeneral
/-!
# Runs that do not end

Over bindings that nest, some unification goes on for ever: comparing a nesting variable with its
own value. The two atoms unfold to the same infinite tree, so no step fails (`Coherent`); but one of
them is always unfolded further than the other, so no substitution makes them equal (`Lags`).
Hence every unification over given bindings halts just when they are unnested
(`halts_iff_unnested`).
-/

namespace Atomspace

variable {ν : Type}

/-! ## Places in an atom -/

namespace Atom

/-- The atom at a place, given by the positions of the children that lead to it. -/
def at? : List Nat → Atom ν → Option (Atom ν)
  | [], a => some a
  | i :: p, expr l => l[i]?.bind (at? p)
  | _ :: _, _ => none

theorem at?_append (p q : List Nat) (a : Atom ν) : at? (p ++ q) a = (at? p a).bind (at? q) := by
  induction p generalizing a with
  | nil => rfl
  | cons i p ih =>
    cases a with
    | expr l =>
      simp only [List.cons_append, at?, Option.bind_assoc]
      exact congrArg _ (funext ih)
    | _ => rfl

theorem at?_bind {p : List Nat} {a c : Atom ν} (h : at? p a = some c) (f : String → Atom ν) :
    at? p (a.bind f) = some (c.bind f) := by
  induction p generalizing a with
  | nil => cases h; rfl
  | cons i p ih =>
    cases a with
    | expr l =>
      obtain ⟨b, hb, hc⟩ := Option.bind_eq_some_iff.1 h
      rw [bind_expr, at?, List.getElem?_map, hb]
      exact ih hc
    | _ => cases h

theorem exists_at?_of_mem_vars {a : Atom ν} {x : String} (h : x ∈ a.vars) : ∃ p, at? p a = some (var x) := by
  induction a using induct with
  | var y =>
    obtain rfl : x = y := by simpa using h
    exact ⟨[], rfl⟩
  | expr l ih =>
    obtain ⟨a, ha, hx⟩ := List.mem_flatMap.1 (vars_expr l ▸ h)
    obtain ⟨p, hp⟩ := ih a ha hx
    obtain ⟨i, hi⟩ := List.mem_iff_getElem?.1 ha
    exact ⟨i :: p, by rw [at?, hi]; exact hp⟩
  | constant a hc => rw [vars_constant hc] at h; cases h

end Atom

namespace Bindings

/-! ## Paths through the values -/

/-- A path from a variable to `x` that visits no variable twice: the variables it follows are freed on
the way. It ends at a place of the unfolded variable, with the bindings that are left. -/
inductive Path (x : String) : Bindings ν → String → List Nat → Bindings ν → Prop
  | here {b : Bindings ν} : Path x b x [] b
  | follow {b c : Bindings ν} {y z : String} {a : Atom ν} {p q : List Nat} : y ≠ x → b.find? y = some a →
      a.at? p = some (.var z) → Path x (b.erase y) z q c → Path x b y (p ++ q) c

theorem Path.at?_subst {b c : Bindings ν} {x y : String} {p : List Nat} (h : Path x b y p c) :
    (b.subst (.var y)).at? p = some (c.subst (.var x)) := by
  induction h with
  | here => rfl
  | @follow b c y z a p q _ hy hz _ ih =>
    rw [subst_var_of_find hy, Atom.at?_append, subst, Atom.at?_bind hz]
    exact ih

theorem Path.erase {b c : Bindings ν} {x y : String} {p : List Nat} (h : Path x b y p c) :
    Path x (b.erase x) y p (c.erase x) := by
  induction h with
  | here => exact .here
  | @follow b c y z a p q hne hy hz _ ih =>
    refine .follow hne ?_ hz (erase_comm b x y ▸ ih)
    rw [find?_erase, if_neg hne, hy]

theorem Path.find? {b c : Bindings ν} {x y : String} {p : List Nat} (h : Path x b y p c) :
    c.find? x = b.find? x := by
  induction h with
  | here => rfl
  | follow hne _ _ _ ih => rw [ih, find?_erase, if_neg hne.symm]

theorem Path.free {b c : Bindings ν} {x y : String} {p : List Nat} (h : Path x b y p c) {z : String}
    (hz : b.find? z = none) : c.find? z = none := by
  induction h with
  | here => exact hz
  | follow _ _ _ _ ih => exact ih (free_erase hz _)

theorem Path.start_free {b c : Bindings ν} {x y : String} {p : List Nat} (h : Path x b y p c)
    (hne : y ≠ x) : c.find? y = none := by
  cases h with
  | here => exact absurd rfl hne
  | follow _ _ _ h => exact h.free (by rw [find?_erase, if_pos rfl])

theorem exists_path (b : Bindings ν) {x y : String} (h : Relation.ReflTransGen b.Leads y x) :
    ∃ p c, Path x b y p c := by
  by_cases hne : y = x
  · exact ⟨[], b, hne ▸ .here⟩
  obtain ⟨z, hyz, hzx⟩ := exists_path_avoiding
    ((Relation.reflTransGen_iff_eq_or_transGen.1 h).resolve_left (Ne.symm hne))
  obtain ⟨a, ha, hz⟩ := hyz
  have hlt := size_erase_lt ha
  obtain ⟨p, c, hp⟩ := exists_path (b.erase y)
    (Relation.ReflTransGen.mono (fun u v => (leads_erase b y u v).2) _ _ hzx)
  obtain ⟨q, hq⟩ := Atom.exists_at?_of_mem_vars hz
  exact ⟨q ++ p, c, .follow hne ha hq hp⟩
termination_by b.size

/-- Once round from `x`, through `y` in its value, back to `x`: the places where a substitution
leaves `x` in `x`, and `y` in `y`. -/
structure Turn (b : Bindings ν) (x y : String) (p q : List Nat) : Prop where
  ne_nil : p ≠ []
  near : (b.subst (.var x)).at? (p ++ q) = some (.var x)
  far : (b.subst (.var y)).at? (q ++ p) = some (.var y)

theorem Nests.turn {b : Bindings ν} {x : String} (h : b.Nests x) : ∃ a y p q,
    b.find? x = some a ∧ a.isVar = false ∧ a.at? p = some (.var y) ∧ b.Turn x y p q := by
  obtain ⟨a, ha, hvar, y, hy, hyx⟩ := h
  obtain ⟨p, hp⟩ := Atom.exists_at?_of_mem_vars hy
  obtain ⟨q, c, hq⟩ := b.exists_path hyx
  have hx : (c.erase x).find? x = none := by rw [find?_erase, if_pos rfl]
  have hy : (c.erase x).find? y = none := by
    by_cases hne : y = x
    · exact hne ▸ hx
    · rw [find?_erase, if_neg hne]
      exact hq.start_free hne
  refine ⟨a, y, p, q, ha, hvar, hp, ?_, ?_, ?_⟩
  · rintro rfl
    cases hp
    cases hvar
  · calc (b.subst (.var x)).at? (p ++ q) = ((b.erase x).subst (.var y)).at? q := by
          rw [subst_var_of_find ha, Atom.at?_append, subst, Atom.at?_bind hp]; rfl
      _ = some ((c.erase x).subst (.var x)) := hq.erase.at?_subst
      _ = some (.var x) := by rw [subst_var_of_free hx]
  · calc (b.subst (.var y)).at? (q ++ p) = ((c.erase x).subst a).at? p := by
          rw [Atom.at?_append, hq.at?_subst, subst_var_of_find (hq.find?.trans ha)]; rfl
      _ = some ((c.erase x).subst (.var y)) := Atom.at?_bind hp _
      _ = some (.var y) := by rw [subst_var_of_free hy]

/-! ## Unfolding -/

/-- The second atom is the first one with some variables replaced by their values, again and again.
Variables on a circle of variables have no value to show and stay. -/
inductive Unfolds (b : Bindings ν) : Atom ν → Atom ν → Prop
  | refl (a : Atom ν) : Unfolds b a a
  | expr {l m : List (Atom ν)} : l.length = m.length →
      (∀ i (hl : i < l.length) (hm : i < m.length), Unfolds b l[i] m[i]) → Unfolds b (.expr l) (.expr m)
  | value {x : String} {a c : Atom ν} : b.find? x = some a → ¬ Relation.TransGen b.Renames x x →
      Unfolds b a c → Unfolds b (.var x) c

theorem Unfolds.trans {b : Bindings ν} {u v w : Atom ν} (h : b.Unfolds u v) (hw : b.Unfolds v w) :
    b.Unfolds u w := by
  induction h generalizing w with
  | refl => exact hw
  | value hx hc _ ih => exact .value hx hc (ih hw)
  | expr hlen h ih =>
    cases hw with
    | refl => exact .expr hlen h
    | expr hlen' h' =>
      exact .expr (hlen.trans hlen') fun i hl hn => ih i hl (hlen ▸ hl) (h' i (hlen ▸ hl) hn)

theorem unfolds_bind {b : Bindings ν} (a : Atom ν) {f : String → Atom ν}
    (h : ∀ x ∈ a.vars, b.Unfolds (.var x) (f x)) : b.Unfolds a (a.bind f) := by
  induction a using Atom.induct with
  | var x => exact h x (by simp)
  | expr l ih =>
    rw [Atom.bind_expr]
    apply Unfolds.expr (by simp)
    intro i hl _
    rw [List.getElem_map]
    apply ih _ (List.getElem_mem hl)
    intro x hx
    apply h
    exact Atom.vars_expr l ▸ List.mem_flatMap.2 ⟨_, List.getElem_mem hl, hx⟩
  | constant a hc => rw [Atom.bind_constant hc]; exact .refl a

/-- A circle of variables stays when a variable that is on no circle is freed. -/
theorem circle_erase {b : Bindings ν} {y z : String} (hy : ¬ Relation.TransGen b.Renames y y)
    (hz : Relation.TransGen b.Renames z z) : Relation.TransGen (b.erase y).Renames z z := by
  -- along the circle, `w` is what has been reached so far; it is not `y`, which is on no circle
  suffices ∀ w, Relation.ReflTransGen b.Renames z w → Relation.TransGen b.Renames w z →
      Relation.TransGen (b.erase y).Renames w z from this z .refl hz
  intro w hzw hwz
  induction hwz using Relation.TransGen.head_induction_on with
  | @single w h =>
    exact .single ((renames_erase b y w z).2 ⟨fun e => hy (e ▸ .head' h hzw), h⟩)
  | @head w v h hvz ih =>
    refine .head ((renames_erase b y w v).2 ⟨fun e => hy ?_, h⟩) (ih (hzw.tail h))
    exact e ▸ .head' h (hvz.to_reflTransGen.trans hzw)

theorem unfolds_expand {b : Bindings ν} (n : Nat) : ∀ (c : Bindings ν) (x : String), c.size ≤ n →
    (∀ y a, c.find? y = some a → b.find? y = some a) →
    (∀ y, Relation.TransGen b.Renames y y → Relation.TransGen c.Renames y y) →
    b.Unfolds (.var x) (c.expand n x) := by
  -- `c` is what is left of `b` when variables on no circle are freed
  induction n with
  | zero => intro c x _ _ _; exact .refl _
  | succ n ih =>
    intro c x hn hsub hcircle
    by_cases hx : Relation.TransGen b.Renames x x
    · rw [expand_of_circle (hcircle x hx) _ hn]
      exact .refl _
    cases ha : c.find? x with
    | none => rw [expand_of_free ha]; exact .refl _
    | some a =>
      have hlt := size_erase_lt ha
      rw [expand_succ ha]
      refine .value (hsub x a ha) hx (unfolds_bind a fun y _ => ih _ y (by omega) ?_ ?_)
      · exact fun z d hz => hsub z d (find?_of_erase hz)
      · intro z hz
        refine circle_erase (fun h => hx ?_) (hcircle z hz)
        exact Relation.TransGen.mono (fun y z h => hsub y (.var z) h) _ _ h

theorem unfolds_subst (b : Bindings ν) (a : Atom ν) : b.Unfolds a (b.subst a) :=
  unfolds_bind a fun x _ => unfolds_expand _ b x (Nat.le_refl _) (fun _ _ h => h) fun _ h => h

/-- The variable has no value to show. -/
def Stuck (b : Bindings ν) (x : String) : Prop :=
  b.find? x = none ∨ Relation.TransGen b.Renames x x

theorem renames_of_expand_eq_var (n : Nat) : ∀ (b : Bindings ν) (x z : String), b.size ≤ n →
    b.expand n x = .var z → Relation.ReflTransGen b.Renames x z ∧ b.Stuck z := by
  induction n with
  | zero =>
    intro b x z hn h
    cases h
    exact ⟨.refl, .inl (expand_zero_free hn x)⟩
  | succ n ih =>
    intro b x z hn h
    cases ha : b.find? x with
    | none =>
      rw [expand_of_free ha] at h
      cases h
      exact ⟨.refl, .inl ha⟩
    | some a =>
      have hlt := size_erase_lt ha
      rw [expand_succ ha] at h
      obtain ⟨y, rfl, hy⟩ := Atom.eq_var_of_bind_eq_var h
      obtain ⟨hyz, hstuck⟩ := ih _ y z (by omega) hy
      have hxz : Relation.TransGen b.Renames x z :=
        .head' ha (Relation.ReflTransGen.mono (fun u v h => ((renames_erase b x u v).1 h).2) _ _ hyz)
      refine ⟨hxz.to_reflTransGen, ?_⟩
      rcases hstuck with hfree | hcircle
      · rcases eq_or_free_of_erase hfree with rfl | hfree
        · exact .inr hxz
        · exact .inl hfree
      · exact .inr (Relation.TransGen.mono (fun u v h => ((renames_erase b x u v).1 h).2) _ _ hcircle)

theorem stuck_of_subst_eq_var {b : Bindings ν} {a : Atom ν} {z : String} (h : b.subst a = .var z) :
    b.Stuck z := by
  obtain ⟨x, -, hx⟩ := Atom.eq_var_of_bind_eq_var h
  exact (renames_of_expand_eq_var _ b x z (Nat.le_refl _) hx).2

/-- Both atoms are unfoldings of one atom. -/
def Coherent (b : Bindings ν) (l r : Atom ν) : Prop := ∃ u, b.Unfolds u l ∧ b.Unfolds u r

theorem Coherent.subst {b : Bindings ν} {l r : Atom ν} (h : b.Coherent l r) :
    b.Coherent (b.subst l) (b.subst r) := by
  obtain ⟨u, hl, hr⟩ := h
  exact ⟨u, hl.trans (b.unfolds_subst l), hr.trans (b.unfolds_subst r)⟩

theorem Unfolds.not_value {b : Bindings ν} {x : String} {c : Atom ν} (h : b.Unfolds (.var x) c)
    (hx : b.Stuck x) : c = .var x := by
  cases h with
  | refl => rfl
  | value ha hc =>
    rcases hx with hx | hx
    · rw [hx] at ha
      cases ha
    · exact absurd hx hc

theorem coherent_zip {b : Bindings ν} {as bs : List (Atom ν)}
    (h : ∀ i (ha : i < as.length) (hb : i < bs.length), b.Coherent as[i] bs[i]) :
    ∀ p ∈ as.zip bs, b.Coherent p.1 p.2 := by
  intro p hp
  obtain ⟨i, hi, rfl⟩ := List.mem_iff_getElem.1 hp
  rw [List.getElem_zip]
  exact h i _ _

/-- Coherent atoms that have no value to show are equal, or expressions with coherent children. -/
theorem Coherent.cases {b : Bindings ν} {l r : Atom ν} (h : b.Coherent l r)
    (hl : ∀ x, l = .var x → b.Stuck x) (hr : ∀ x, r = .var x → b.Stuck x) :
    l = r ∨ ∃ as bs, l = .expr as ∧ r = .expr bs ∧ as.length = bs.length ∧
      ∀ p ∈ as.zip bs, b.Coherent p.1 p.2 := by
  obtain ⟨u, hul, hur⟩ := h
  -- as long as both unfoldings replace the same variable, they are unfoldings of its value
  induction hul with
  | refl l =>
    cases hur with
    | refl => exact .inl rfl
    | expr hlen h =>
      exact .inr ⟨_, _, rfl, rfl, hlen, coherent_zip fun i ha hb => ⟨_, .refl _, h i ha hb⟩⟩
    | @value x _ _ ha hc h => exact .inl ((Unfolds.value ha hc h).not_value (hl x rfl)).symm
  | @expr us as hlen h _ =>
    cases hur with
    | refl =>
      refine .inr ⟨as, us, rfl, rfl, hlen.symm, coherent_zip fun i ha hb => ⟨_, h i hb ha, .refl _⟩⟩
    | @expr _ bs hlen' h' =>
      refine .inr ⟨as, bs, rfl, rfl, hlen.symm.trans hlen', coherent_zip fun i ha hb => ?_⟩
      exact ⟨_, h i (hlen ▸ ha) ha, h' i (hlen ▸ ha) hb⟩
  | @value x a l ha hc h ih =>
    cases hur with
    | refl => exact .inl ((Unfolds.value ha hc h).not_value (hr x rfl))
    | value ha' _ h' =>
      obtain rfl := Option.some.inj (ha.symm.trans ha')
      exact ih hl h'

/-- At some place the first atom has `x`, and the second one has `y` at the place `p` further in. -/
def Lags (x y : String) (p : List Nat) (l r : Atom ν) : Prop :=
  ∃ o, l.at? o = some (.var x) ∧ r.at? (o ++ p) = some (.var y)

theorem Lags.subst {b : Bindings ν} {x y : String} {p q : List Nat} {l r : Atom ν}
    (ht : b.Turn x y p q) (h : Lags x y p l r) : Lags x y p (b.subst l) (b.subst r) := by
  obtain ⟨o, hl, hr⟩ := h
  refine ⟨o ++ (p ++ q), ?_, ?_⟩
  · rw [Atom.at?_append, Bindings.subst, Atom.at?_bind hl]
    exact ht.near
  · rw [show o ++ (p ++ q) ++ p = (o ++ p) ++ (q ++ p) by simp, Atom.at?_append, Bindings.subst,
      Atom.at?_bind hr]
    exact ht.far

theorem Lags.ne {x y : String} {p : List Nat} {l r : Atom ν} (hp : p ≠ []) (h : Lags x y p l r) :
    l ≠ r := by
  rintro rfl
  obtain ⟨o, hl, hr⟩ := h
  obtain ⟨i, p, rfl⟩ := List.exists_cons_of_ne_nil hp
  rw [Atom.at?_append, hl] at hr
  cases hr

theorem Lags.child {x y : String} {p : List Nat} {as bs : List (Atom ν)}
    (h : Lags x y p (.expr as) (.expr bs)) : ∃ c ∈ as.zip bs, Lags x y p c.1 c.2 := by
  obtain ⟨o, hl, hr⟩ := h
  cases o with
  | nil => cases hl
  | cons i o =>
    obtain ⟨a, ha, hl⟩ := Option.bind_eq_some_iff.1 hl
    obtain ⟨b, hb, hr⟩ := Option.bind_eq_some_iff.1 hr
    exact ⟨(a, b), List.mem_of_getElem? (List.getElem?_zip_eq_some.2 ⟨ha, hb⟩), o, hl, hr⟩

end Bindings

namespace Unifier

variable [Scalar ν]

theorem not_halts_of_invariant {P : Unifier ν → Prop} (hp : ∀ u, P u → u.pending ≠ [])
    (hs : ∀ u, P u → ∃ w, u.step = some w ∧ P w) {u : Unifier ν} (h : P u) : ¬ u.Halts := by
  intro hu
  induction hu with
  | done hd => exact hp _ h hd
  | fail hf =>
    obtain ⟨w, hw, -⟩ := hs _ h
    rw [hf] at hw
    cases hw
  | next hn _ ih =>
    obtain ⟨w, hw, hP⟩ := hs _ h
    rw [hn] at hw
    cases hw
    exact ih hP

/-- All pending pairs are coherent, and one of them lags. -/
structure Loops (D : Set (Atom ν)) (b : Bindings ν) (x y : String) (p : List Nat) (u : Unifier ν) :
    Prop where
  bindings : u.bindings = b
  pair : ∀ c ∈ u.pending, c.1 ∈ D ∧ c.2 ∈ D ∧ b.Coherent c.1 c.2
  lags : ∃ c ∈ u.pending, Bindings.Lags x y p c.1 c.2

theorem Loops.step {D : Set (Atom ν)} (hD : Atom.Faithful D) {b : Bindings ν} (hb : b.Within D)
    {x y : String} {p q : List Nat} (ht : b.Turn x y p q) {u : Unifier ν} (h : u.Loops D b x y p) :
    ∃ w, u.step = some w ∧ w.Loops D b x y p := by
  obtain ⟨rfl, hpair, c, hc, hlag⟩ := h
  obtain ⟨⟨l, r⟩, rest, hlr⟩ := List.exists_cons_of_ne_nil (List.ne_nil_of_mem hc)
  rw [hlr] at hpair hc
  obtain ⟨⟨hl, hr, hco⟩, hrest⟩ := List.forall_mem_cons.1 hpair
  have hlD := hb.subst_mem hD hl
  have hrD := hb.subst_mem hD hr
  have hcases := hco.subst.cases (fun z => Bindings.stuck_of_subst_eq_var)
    fun z => Bindings.stuck_of_subst_eq_var
  -- if the first pair is the one that lags, it does so after substitution, and then some child does
  have hhead : Bindings.Lags x y p l r →
      Bindings.Lags x y p (u.bindings.subst l) (u.bindings.subst r) := Bindings.Lags.subst ht
  have hs := settled_step hlr
  generalize u.bindings.subst l = l', u.bindings.subst r = r' at hs hlD hrD hcases hhead
  generalize u.step = o at hs
  cases hs with
  | equal e =>
    refine ⟨_, rfl, rfl, hrest, ?_⟩
    rcases List.mem_cons.1 hc with rfl | hc
    · exact absurd (hD.eq_of_beq hlD hrD e) ((hhead hlag).ne ht.ne_nil)
    · exact ⟨c, hc, hlag⟩
  | left e _ =>
    rcases hcases with rfl | ⟨as, bs, hl', -⟩
    · exact absurd rfl (Atom.ne_of_beq_eq_false e)
    · cases hl'
  | right e _ =>
    rcases hcases with rfl | ⟨as, bs, -, hr', -⟩
    · exact absurd rfl (Atom.ne_of_beq_eq_false e)
    · cases hr'
  | @split as bs e hlen =>
    rcases hcases with h | ⟨_, _, hl', hr', -, hchildren⟩
    · exact absurd h (Atom.ne_of_beq_eq_false e)
    cases hl'
    cases hr'
    refine ⟨_, rfl, rfl, List.forall_mem_append.2 ⟨fun d hd => ?_, hrest⟩, ?_⟩
    · obtain ⟨h1, h2⟩ := List.of_mem_zip hd
      exact ⟨hD.part hlD h1, hD.part hrD h2, hchildren d hd⟩
    · rcases List.mem_cons.1 hc with rfl | hc
      · obtain ⟨d, hd, hlag⟩ := (hhead hlag).child
        exact ⟨d, List.mem_append_left _ hd, hlag⟩
      · exact ⟨c, List.mem_append_right _ hc, hlag⟩
  | length hlen =>
    rcases hcases with h | ⟨_, _, hl', hr', h, -⟩
    · cases h
      exact absurd rfl hlen
    · cases hl'
      cases hr'
      exact absurd h hlen
  | clash e _ _ hconst =>
    rcases hcases with h | ⟨_, _, rfl, rfl, -⟩
    · exact absurd h (Atom.ne_of_beq_eq_false e)
    · rcases hconst with h | h <;> cases h

/-- Comparing a nesting variable with its value goes on for ever. -/
theorem not_halts_of_nests {D : Set (Atom ν)} (hD : Atom.Faithful D) {b : Bindings ν} (hb : b.Within D)
    {x : String} (hx : b.Nests x) : ∃ a, ¬ (start (.var x) a b).Halts := by
  have hxD : .var x ∈ D := by
    obtain ⟨a, ha, -, y, hy, hyx⟩ := hx
    rcases Relation.ReflTransGen.cases_tail hyx with rfl | ⟨w, -, d, hd, hxd⟩
    · exact hD.var_mem (hb _ a ha) hy
    · exact hD.var_mem (hb w d hd) hxd
  obtain ⟨a, y, p, q, ha, hvar, hp, ht⟩ := hx.turn
  -- the value of `x` is no variable, so `x` unfolds to it
  have hcircle : ¬ Relation.TransGen b.Renames x x := by
    intro h
    obtain ⟨z, hz, -⟩ := Relation.TransGen.head'_iff.1 h
    rw [Bindings.Renames, ha] at hz
    cases hz
    cases hvar
  have hloops : (start (.var x) a b).Loops D b x y p :=
    ⟨rfl, List.forall_mem_singleton.2 ⟨hxD, hb x a ha, _, .refl _, .value ha hcircle (.refl a)⟩,
      _, List.mem_singleton.2 rfl, [], rfl, hp⟩
  refine ⟨a, not_halts_of_invariant ?_ (fun u hu => hu.step hD hb ht) hloops⟩
  intro u hu hn
  obtain ⟨c, hc, -⟩ := hu.lags
  rw [hn] at hc
  cases hc

/-- Every unification over given bindings halts just when no value among them has itself inside. -/
theorem halts_iff_unnested {D : Set (Atom ν)} (hD : Atom.Faithful D) {c : Bindings ν}
    (hc : c.Within D) : (∀ l r, (start l r c).Halts) ↔ c.Unnested := by
  refine ⟨fun h x hx => ?_, fun h l r => halts_of_unnested h l r⟩
  obtain ⟨a, ha⟩ := not_halts_of_nests hD hc hx
  exact ha (h _ _)

/-- Two variables that stand for nothing but themselves inside an expression. -/
def knot : Bindings Double :=
  ((∅ : Bindings Double).insert "x" (.expr [.symbol "f", .var "x"])).insert "w"
    (.expr [.symbol "f", .var "w"])

theorem knot_within : knot.Within {a | Atom.Plain a} :=
  ((Bindings.within_empty _).insert "x" (plain_call (.var (by decide)))).insert "w"
    (plain_call (.var (by decide)))

/-- The two variables of a knot are taken apart for ever, though the run assigns neither. -/
theorem not_halts_knot : ¬ (start (.var "x") (.var "w") knot).Halts := by
  let u : Unifier Double := start (.var "x") (.var "w") knot
  let w : Unifier Double :=
    { pending := [(.symbol "f", .symbol "f"), (.var "x", .var "w")], bindings := knot }
  refine not_halts_of_invariant (P := fun v => v = u ∨ v = w) ?_ ?_ (.inl rfl)
  · rintro v (rfl | rfl) <;> exact List.cons_ne_nil _ _
  · rintro v (rfl | rfl)
    · exact ⟨w, rfl, .inr rfl⟩
    · exact ⟨u, rfl, .inl rfl⟩

theorem halts_iff_unnested_chain_knot : (∀ l r : Atom Double, (start l r chain).Halts) ∧
    ¬ ∀ l r : Atom Double, (start l r knot).Halts := by
  refine ⟨(halts_iff_unnested Atom.faithful_plain chain_within).2 chain_acyclic.unnested, fun h => ?_⟩
  have hx : knot.Nests "x" := ⟨_, rfl, rfl, "x", by decide, .refl⟩
  exact (halts_iff_unnested Atom.faithful_plain knot_within).1 h "x" hx

end Unifier

end Atomspace
