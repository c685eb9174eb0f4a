import Atomspace.Proofs.Forgetting
/-!
# What writes do to a space

Each write changes the fact under one key: a removal takes it away (`fact?_drop`), and an assertion
adds to what is known there, whatever that was (`fact?_assert`). Buckets of other heads keep their
members in order (`bucket_assert`, `bucket_drop`).
-/

namespace Atomspace

namespace Space

variable {ν : Type} [Scalar ν]

/-! ## Facts -/

omit [Scalar ν] in
theorem fact?_isSome (s : Space ν) (key : String) : (s.fact? key).isSome = s.contains key := by
  rw [fact?, Option.isSome_map]
  rfl

omit [Scalar ν] in
theorem fact?_eq_none_iff {s : Space ν} {key : String} : s.fact? key = none ↔ s.contains key = false := by
  rw [← fact?_isSome, Option.isSome_eq_false_iff, Option.isNone_iff_eq_none]

theorem fact?_drop (s : Space ν) (key other : String) :
    (s.drop key).fact? other = if other = key then none else s.fact? other := by
  rw [fact?, fact?, slots_drop, Table.get?_erase]
  split <;> rfl

theorem slots_store (s : Space ν) (a : Atom ν) : (s.store a).slots = s.slots.insert a.key
    { atom := s.share a
      value := .fresh (.ofLevels s.config.initialShortTerm s.config.initialLongTerm) s.clock } := by
  rw [← share_key s a]
  unfold store
  simp only
  split
  · rw [slots_file]
  · rfl

theorem fact?_store (s : Space ν) (a : Atom ν) (key : String) :
    (s.store a).fact? key = if key = a.key then some (s.share a, .unknown) else s.fact? key := by
  rw [fact?, fact?, slots_store, Table.get?_insert]
  split <;> rfl

theorem fact?_add (s : Space ν) (a : Atom ν) (key : String) : (s.add a).2.fact? key =
    if key = a.key then some ((s.fact? key).getD (s.share a, .unknown)) else s.fact? key := by
  unfold add
  simp only
  rw [(read_touch ..).fact?]
  split
  · rename_i hold
    split
    · rename_i e
      obtain ⟨fact, hfact⟩ := Option.isSome_iff_exists.1 ((s.fact?_isSome a.key).trans hold)
      rw [e, hfact]
      rfl
    · rfl
  · rename_i hnew
    rw [fact?_store]
    split
    · rename_i e
      rw [e, fact?_eq_none_iff.2 (by simpa using hnew)]
      rfl
    · rfl

theorem key_add {s : Space ν} (hs : s.Filed) (a : Atom ν) : (s.add a).1.key = a.key := by
  obtain ⟨c, truth, hfact⟩ : ∃ c truth, (s.add a).2.fact? a.key = some (c, truth) := by
    rw [fact?_add, if_pos rfl]
    exact ⟨_, _, rfl⟩
  have hatom := atom?_of_fact? hfact
  have hstored : (s.add a).1 = ((s.add a).2.atom? a.key).getD a := by
    rfl
  rw [hstored, hatom, Option.getD_some]
  exact (hs.changes (s.changes_add a)).keyed _ _ hatom

/-- Adding stores an atom that was there before, or the one that is added. -/
theorem atom?_add_cases {s : Space ν} {a b : Atom ν} {key : String} (h : (s.add a).2.atom? key = some b) :
    s.atom? key = some b ∨ (key = a.key ∧ s.atom? key = none ∧ b = s.share a) := by
  rw [atom?_eq, fact?_add] at h
  rw [atom?_eq]
  split at h
  · rename_i hkey
    cases hfact : s.fact? key with
    | none =>
      rw [hfact] at h
      cases h
      exact .inr ⟨hkey, rfl, rfl⟩
    | some fact =>
      rw [hfact] at h
      exact .inl h
  · exact .inl h

/-- So does asserting. -/
theorem atom?_assert_cases {s : Space ν} {a b : Atom ν} {t : Truth ν} {key : String}
    (h : (s.assert a t).2.atom? key = some b) :
    s.atom? key = some b ∨ (key = a.key ∧ s.atom? key = none ∧ b = s.share a) := by
  unfold assert at h
  simp only at h
  rw [(revalued_update ..).atom?] at h
  exact atom?_add_cases h

/-- An empty space holds its protected symbols and nothing else. -/
theorem atom?_empty {config : SpaceConfig ν} {key : String} {b : Atom ν}
    (h : (empty config).atom? key = some b) : key ∈ protectedNames ∧ b = .symbol key := by
  refine empty_of_add (P := fun s => s.atom? key = some b → key ∈ protectedNames ∧ b = .symbol key)
    nofun (fun s name hname hs h => ?_) h
  rcases atom?_add_cases h with h | ⟨rfl, -, rfl⟩
  · exact hs h
  · exact ⟨hname, rfl⟩

/-- A change of a truth is a change of that truth only. -/
theorem fact?_update (s : Space ν) (a : Atom ν) (f : Truth ν → Truth ν) (key : String) :
    (s.update a fun v => { v with truth := f v.truth }).2.fact? key =
      if key = a.key then (s.fact? key).map fun fact => (fact.1, f fact.2) else s.fact? key := by
  unfold update value?
  cases h : s.slots.get? a.key with
  | none =>
    simp only [Option.map_none]
    split
    · rename_i e
      rw [e, fact?, h]
      rfl
    · rfl
  | some slot =>
    simp only [Option.map_some]
    rw [fact?, fact?, Table.get?_modify, h]
    split
    · rename_i e
      rw [e, h]
      simp only [Option.map_some]
      split <;> rfl
    · rfl

/-- An assertion adds to what is known of an atom, and stores the atom first if nothing is. -/
theorem fact?_assert {s : Space ν} (hs : s.Filed) (a : Atom ν) (t : Truth ν) (key : String) :
    (s.assert a t).2.fact? key =
      if key = a.key then
        let fact := (s.fact? key).getD (s.share a, .unknown)
        some (fact.1, fact.2.merge t)
      else s.fact? key := by
  have hupdate := (s.add a).2.fact?_update (s.add a).1 (·.merge t) key
  rw [fact?_add, key_add hs] at hupdate
  unfold assert
  simp only
  rw [hupdate]
  split <;> rfl

theorem Reachable.step {s t : Space ν} (h : s.Reachable) (hstep : Step s t) : t.Reachable := by
  obtain ⟨config, hsteps⟩ := h
  exact ⟨config, hsteps.tail hstep⟩

theorem Reachable.steps {s t : Space ν} (h : s.Reachable) (hsteps : Steps s t) : t.Reachable := by
  obtain ⟨config, hreach⟩ := h
  exact ⟨config, hreach.trans hsteps⟩

/-! ## Buckets -/

omit [Scalar ν] in
theorem bucket_file (s : Space ν) {head h : String} (hne : h ≠ head) (key : String) :
    (s.file head key).bucket h = s.bucket h := by
  unfold file
  simp only
  split
  · rfl
  · rw [bucket_insert, if_neg hne]

theorem bucket_store (s : Space ν) {a : Atom ν} {h : String} (hne : headKey? a ≠ some h) :
    (s.store a).bucket h = s.bucket h := by
  rw [← headKey?_share s a] at hne
  unfold store
  simp only
  split
  · rename_i head hhead
    show (s.file head (s.share a).key).bucket h = s.bucket h
    apply bucket_file
    rintro rfl
    exact hne hhead
  · rfl

/-- An assertion leaves the buckets of other heads as they are. -/
theorem bucket_assert (s : Space ν) {a : Atom ν} {h : String} (hne : headKey? a ≠ some h) (t : Truth ν) :
    (s.assert a t).2.bucket h = s.bucket h := by
  have hadd : (s.add a).2.bucket h = s.bucket h := by
    unfold add
    simp only
    rw [bucket, (read_touch ..).index]
    split
    · rfl
    · exact s.bucket_store hne
  unfold assert
  simp only
  rw [bucket, (revalued_update ..).index]
  exact hadd

theorem config_store (s : Space ν) (a : Atom ν) : (s.store a).config = s.config := by
  unfold store file
  simp only
  split
  · split <;> rfl
  · rfl

theorem config_add (s : Space ν) (a : Atom ν) : (s.add a).2.config = s.config := by
  unfold add
  simp only
  rw [(read_touch ..).config]
  split
  · rfl
  · exact s.config_store a

theorem config_empty (config : SpaceConfig ν) : (empty config).config = config :=
  empty_of_add (P := fun s => s.config = config) rfl fun s _ _ hs => (s.config_add _).trans hs

theorem config_assert (s : Space ν) (a : Atom ν) (t : Truth ν) : (s.assert a t).2.config = s.config := by
  unfold assert
  simp only
  rw [(revalued_update ..).config, config_add]

end Space

end Atomspace
