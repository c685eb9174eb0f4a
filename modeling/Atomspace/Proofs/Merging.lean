import Atomspace.Proofs.MostGeneral
/-!
# Merged bindings

A merge assigns the entries of the second bindings to their variables one after the other, on top of
the first bindings, and then works off the pairs that were left. `opened_spec` is about the entries:
each adds its equation, and an entry that fails leaves no solution. A variable that has a value
already is reopened, but no key comes up twice, so none is reopened again.

`merge_spec` sums up the whole merge. The second bindings are only read as a set of equations, so
they may be cyclic and stand in any order.
-/

namespace Atomspace

variable {ν : Type}

/-- In a table of distinct keys the entries are what look-ups find. -/
theorem Table.mem_entries_iff {α : Type} {t : Table α} (h : t.keys.Nodup) (key : String) (a : α) :
    (key, a) ∈ t.entries ↔ t.get? key = some a :=
  ⟨get?_of_mem_entries h, mem_entries_of_get?⟩

namespace Bindings

/-- The entry is satisfied when its variable is made equal to its value. -/
def Meets (s : String → Atom ν) (e : String × Atom ν) : Prop := s e.1 = e.2.bind s

theorem holds_iff_entries {b : Bindings ν} (h : b.values.keys.Nodup) (s : String → Atom ν) :
    b.Holds s ↔ ∀ e ∈ b.values.entries, Meets s e :=
  ⟨fun hb e he => hb e.1 e.2 ((Table.mem_entries_iff h ..).1 he),
    fun hb x a hx => hb (x, a) ((Table.mem_entries_iff h ..).2 hx)⟩

section
variable {b c : Bindings ν}

theorem nodup_of_perm (h : b.values.entries.Perm c.values.entries) (hc : c.values.keys.Nodup) :
    b.values.keys.Nodup :=
  (h.map Prod.fst).nodup_iff.2 hc

/-- The order of the entries does not matter to an assignment. -/
theorem holds_of_perm (h : b.values.entries.Perm c.values.entries) (hc : c.values.keys.Nodup)
    (s : String → Atom ν) : b.Holds s ↔ c.Holds s := by
  rw [holds_iff_entries (nodup_of_perm h hc), holds_iff_entries hc]
  simp only [h.mem_iff]

theorem Within.of_perm {D : Set (Atom ν)} (hD : c.Within D)
    (h : b.values.entries.Perm c.values.entries) (hc : c.values.keys.Nodup) : b.Within D := by
  intro x a hx
  refine hD x a ((Table.mem_entries_iff hc x a).1 (h.mem_iff.1 ?_))
  exact Table.mem_entries_of_get? hx

end

end Bindings

/-! ## Entries one by one -/

namespace Unifier

section
variable {D : Set (Atom ν)} {u w : Unifier ν} {x : String} {a : Atom ν}

/-- An assigned variable is the only one that may be reopened. -/
theorem Assigned.reopened_subset {v : Atom ν} (h : Assigned u x v (some w)) :
    ∀ y ∈ w.reopened, y = x ∨ y ∈ u.reopened := by
  intro y hy
  cases h with
  | same => exact .inr hy
  | free => exact .inr hy
  | reopened => exact List.mem_cons.1 hy

/-- Under what satisfies the bindings, an equation says the same of the substituted value. -/
theorem Solved.meets_iff {s : String → Atom ν} (h : u.Solved s) :
    s x = (u.bindings.subst a).bind s ↔ Bindings.Meets s (x, a) := by
  rw [h.1.bind_subst, Bindings.Meets]

/-- An assignment to a variable that was not reopened fails only where its equation has no
solution. -/
theorem unsolvable_assign (hx : x ∉ u.reopened) (h : u.assign x a = none) (s : String → Atom ν) :
    ¬ (u.Solved s ∧ Bindings.Meets s (x, a)) := by
  rintro ⟨hs, hm⟩
  have hw := assigned_assign u x a
  rw [h] at hw
  exact hw.unsolvable (fun hr => absurd hr hx) s (hs.meets_iff.2 hm)

variable [Scalar ν]

/-- An assignment adds the equation of its variable. -/
theorem solved_assign (hD : Atom.Faithful D) (hu : u.Clean D) (ha : a ∈ D) (h : u.assign x a = some w) :
    w.Clean D ∧ ∀ s, w.Solved s ↔ u.Solved s ∧ Bindings.Meets s (x, a) := by
  have hw := assigned_assign u x a
  rw [h] at hw
  refine ⟨hw.clean hu (hu.within.subst_mem hD ha), fun s => ?_⟩
  rw [hw.solved_iff]
  exact and_congr_right fun hs => hs.meets_iff

/-- Entries under distinct variables, none of them reopened before, add their equations, or have no
common solution. -/
theorem opened_spec (hD : Atom.Faithful D) (l : List (String × Atom ν)) : ∀ {u : Unifier ν}, u.Clean D →
    (∀ e ∈ l, e.2 ∈ D) → (l.map Prod.fst).Nodup → (∀ x ∈ u.reopened, x ∉ l.map Prod.fst) →
    (∀ w, l.foldlM (fun u e => u.assign e.1 e.2) u = some w →
        w.Clean D ∧ ∀ s, w.Solved s ↔ u.Solved s ∧ ∀ e ∈ l, Bindings.Meets s e) ∧
      (l.foldlM (fun u e => u.assign e.1 e.2) u = none →
        ∀ s, ¬ (u.Solved s ∧ ∀ e ∈ l, Bindings.Meets s e)) := by
  induction l with
  | nil =>
    intro u hu _ _ _
    refine ⟨?_, fun h => (by cases h)⟩
    intro w h
    obtain rfl := Option.some.inj h
    exact ⟨hu, by simp⟩
  | cons e l ih =>
    intro u hu hl hkeys hreopened
    obtain ⟨he, hl⟩ := List.forall_mem_cons.1 hl
    obtain ⟨hfresh, hkeys⟩ := List.nodup_cons.1 (List.map_cons ▸ hkeys)
    have hx : e.1 ∉ u.reopened := fun hr => hreopened e.1 hr (by simp)
    simp only [List.foldlM_cons, List.forall_mem_cons]
    cases hv : u.assign e.1 e.2 with
    | none => exact ⟨fun w h => (by cases h), fun _ s hs => unsolvable_assign hx hv s ⟨hs.1, hs.2.1⟩⟩
    | some v =>
      obtain ⟨hvD, hsolved⟩ := solved_assign hD hu he hv
      -- the entry may reopen its own variable, and that one does not come up again
      have hvr : ∀ y ∈ v.reopened, y ∉ l.map Prod.fst := by
        intro y hy
        rcases (hv ▸ assigned_assign u e.1 e.2).reopened_subset y hy with rfl | hy
        · exact hfresh
        · exact fun hm => hreopened y hy (List.mem_cons_of_mem _ hm)
      have hrest := ih hvD hl hkeys hvr
      simp only [hsolved, and_assoc] at hrest
      exact hrest

end

theorem Clean.halts [Scalar ν] {D : Set (Atom ν)} {u : Unifier ν} (hu : u.Clean D) : u.Halts := by
  obtain ⟨V, hV⟩ := exists_inScope hu.acyclic.unnested
  exact hV.halts

end Unifier

/-! ## The whole merge -/

variable [Scalar ν] {D : Set (Atom ν)} {b c d : Bindings ν}

/-- A merge before any pair is worked off: the first bindings with the entries of the second ones
assigned, if none of them fails. -/
def Bindings.opening (b c : Bindings ν) : Option (Unifier ν) :=
  c.values.entries.foldlM (fun u e => u.assign e.1 e.2) { pending := [], bindings := b }

theorem Bindings.merge_eq (b c : Bindings ν) : b.merge c = (b.opening c).bind Unifier.run :=
  rfl

theorem Bindings.opening_spec (hD : Atom.Faithful D) (hb : b.Acyclic) (hbD : b.Within D)
    (hcD : c.Within D) (hc : c.values.keys.Nodup) :
    (∀ u, b.opening c = some u → u.Clean D ∧ ∀ s, u.Solved s ↔ b.Holds s ∧ c.Holds s) ∧
      (b.opening c = none → ∀ s, ¬ (b.Holds s ∧ c.Holds s)) := by
  have hclean : Unifier.Clean D { pending := [], bindings := b } := ⟨hb, hbD, by simp⟩
  have hvalues : ∀ e ∈ c.values.entries, e.2 ∈ D :=
    fun e he => hcD e.1 e.2 ((Table.mem_entries_iff hc ..).1 he)
  have hstart : ∀ s, Unifier.Solved { pending := [], bindings := b } s ↔ b.Holds s :=
    fun s => by simp [Unifier.Solved]
  have hspec := Unifier.opened_spec hD c.values.entries hclean hvalues hc (by simp)
  simp only [hstart, ← holds_iff_entries hc] at hspec
  exact hspec

/-- A merge over acyclic bindings returns acyclic bindings with exactly the common solutions, or
nothing if there is no common solution. -/
theorem Bindings.merge_holds (hD : Atom.Faithful D) (hb : b.Acyclic) (hbD : b.Within D)
    (hcD : c.Within D) (hc : c.values.keys.Nodup) :
    (∀ m, b.merge c = some m → m.Acyclic ∧ ∀ s, m.Holds s ↔ b.Holds s ∧ c.Holds s) ∧
      (b.merge c = none → ∀ s, ¬ (b.Holds s ∧ c.Holds s)) := by
  obtain ⟨hopen, hfail⟩ := opening_spec hD hb hbD hcD hc
  rw [merge_eq]
  cases hu : b.opening c with
  | none => exact ⟨fun m h => (by cases h), fun _ => hfail hu⟩
  | some u =>
    obtain ⟨hclean, hsolved⟩ := hopen u hu
    obtain ⟨hsome, hnone⟩ := Unifier.run_spec hD hclean hclean.halts
    simp only [hsolved] at hsome hnone
    exact ⟨fun m hm => ⟨(hsome m hm).1, (hsome m hm).2.2⟩, hnone⟩

theorem Bindings.isSome_merge_iff (hD : Atom.Faithful D) (hb : b.Acyclic) (hbD : b.Within D)
    (hcD : c.Within D) (hc : c.values.keys.Nodup) :
    (b.merge c).isSome = true ↔ ∃ s, b.Holds s ∧ c.Holds s := by
  obtain ⟨hsome, hnone⟩ := merge_holds hD hb hbD hcD hc
  cases hm : b.merge c with
  | none => simpa using hnone hm
  | some m =>
    -- what the variables stand for under the result is a common solution
    obtain ⟨hacyclic, hs⟩ := hsome m hm
    simpa using ⟨_, (hs _).1 hacyclic.holds_subst⟩

/-- A merge over acyclic bindings halts, whatever the second bindings and the order of their entries.
It fails only where no assignment satisfies both. Otherwise it returns acyclic bindings that satisfy
both, and every assignment that satisfies both is an instance of them. So neither the order decides
whether there is a result, nor, of two acyclic bindings, which one comes first. -/
theorem Bindings.merge_spec (hD : Atom.Faithful D) (hb : b.Acyclic) (hbD : b.Within D)
    (hcD : c.Within D) (hc : c.values.keys.Nodup) (hd : d.values.entries.Perm c.values.entries) :
    (∀ u, b.opening d = some u → u.Halts) ∧
      (b.merge d = none ↔ ¬ ∃ s : String → Atom ν, b.Holds s ∧ c.Holds s) ∧
      (∀ m, b.merge d = some m → m.Acyclic ∧
        (∀ x a, b.find? x = some a ∨ c.find? x = some a → m.subst (.var x) = m.subst a) ∧
        ∀ s : String → Atom ν, b.Holds s → c.Holds s → ∀ v, s v = (m.subst (.var v)).bind s) ∧
      (b.merge d).isSome = (b.merge c).isSome ∧
      (c.Acyclic → b.values.keys.Nodup → ∀ e : Bindings ν, e.values.entries.Perm b.values.entries →
        (c.merge e).isSome = (b.merge d).isSome) := by
  have hdD := hcD.of_perm hd hc
  have hdn := nodup_of_perm hd hc
  have hdc := holds_of_perm hd hc
  have hiff := isSome_merge_iff hD hb hbD hdD hdn
  simp only [hdc] at hiff
  refine ⟨?_, ?_, ?_, ?_, ?_⟩
  · intro u hu
    exact ((opening_spec hD hb hbD hdD hdn).1 u hu).1.halts
  · rw [← hiff, Bool.not_eq_true, Option.isSome_eq_false_iff, Option.isNone_iff_eq_none]
  · intro m hm
    obtain ⟨hacyclic, hs⟩ := (merge_holds hD hb hbD hdD hdn).1 m hm
    simp only [hdc] at hs
    have hboth := (hs _).1 hacyclic.holds_subst
    refine ⟨hacyclic, fun x a hx => hx.elim (hboth.1 x a) (hboth.2 x a), fun s hsb hsc v => ?_⟩
    exact (((hs s).2 ⟨hsb, hsc⟩).bind_subst (.var v)).symm
  · rw [Bool.eq_iff_iff, hiff, isSome_merge_iff hD hb hbD hcD hc]
  · intro hca hbn e he
    rw [Bool.eq_iff_iff, hiff,
      isSome_merge_iff hD hca hcD (hbD.of_perm he hbn) (nodup_of_perm he hbn)]
    simp only [holds_of_perm he hbn]
    exact exists_congr fun _ => and_comm

/-- Seeded bindings that go in a circle, `$x` for `$z` and `$z` for `$x`, with a value for `$y`. -/
def circle : Bindings Double := ⟨⟨[("x", .var "z"), ("z", .var "x"), ("y", .symbol "a")]⟩⟩

theorem circle_within : circle.Within {a | Atom.Plain a} := by
  intro x a hx
  have ha := Table.mem_values_of_get? hx
  simp only [circle, Table.values, List.map_cons, List.map_nil, List.mem_cons, List.not_mem_nil,
    or_false] at ha
  rcases ha with rfl | rfl | rfl
  · exact .var (by decide)
  · exact .var (by decide)
  · exact .symbol (by decide)

theorem merge_spec_circle : ¬ circle.Acyclic ∧
    ∃ m : Bindings Double, chain.merge ⟨⟨circle.values.entries.reverse⟩⟩ = some m ∧ m.Acyclic ∧
      m.subst (.var "z") = .symbol "a" := by
  have hxz : circle.Leads "x" "z" := ⟨.var "z", rfl, by simp⟩
  have hzx : circle.Leads "z" "x" := ⟨.var "x", rfl, by simp⟩
  obtain ⟨-, hnone, hsome, -, -⟩ := Bindings.merge_spec Atom.faithful_plain chain_acyclic chain_within
    circle_within (by decide) (d := ⟨⟨circle.values.entries.reverse⟩⟩) (List.reverse_perm _)
  cases hm : chain.merge ⟨⟨circle.values.entries.reverse⟩⟩ with
  | none =>
    -- everything may stand for `a`
    refine absurd ⟨fun _ => .symbol "a", ?_, ?_⟩ (hnone.1 hm)
    · exact (Bindings.holds_insert rfl _ _).2 ⟨Bindings.holds_empty _, rfl⟩
    · refine (Bindings.holds_iff_entries (by decide) _).2 ?_
      simp [circle, Bindings.Meets]
  | some m =>
    obtain ⟨hacyclic, heq, -⟩ := hsome m hm
    refine ⟨fun h => h "x" (.tail (.single hxz) hzx), m, rfl, hacyclic, ?_⟩
    calc m.subst (.var "z")
      _ = m.subst (.var "x") := heq "z" _ (.inr rfl)
      _ = m.subst (.var "y") := (heq "y" _ (.inl rfl)).symm
      _ = m.subst (.symbol "a") := heq "y" _ (.inr rfl)
      _ = .symbol "a" := rfl

end Atomspace
