import Atomspace.Proofs.HeadIndex
/-!
# What a query does to a space

A query reads: it keeps the stored atoms and their truths, the index and the clock (`read_query`).
Only priorities, the stamps of accesses and the number of renamings may change.
-/

namespace Atomspace

namespace Space

variable {ν : Type}

/-- The atom stored under a key, and its truth. -/
def fact? (s : Space ν) (key : String) : Option (Atom ν × Truth ν) :=
  (s.slots.get? key).map fun slot => (slot.atom, slot.value.truth)

/-- Only priorities, stamps and the number of renamings differ, and that number only grows. -/
structure Read (s t : Space ν) : Prop where
  fact? : ∀ key, t.fact? key = s.fact? key
  index : t.index = s.index
  config : t.config = s.config
  clock : t.clock = s.clock
  renamings : s.renamings ≤ t.renamings

theorem Read.refl (s : Space ν) : Read s s :=
  ⟨fun _ => rfl, rfl, rfl, rfl, Nat.le_refl _⟩

theorem Read.trans {s t u : Space ν} (h : Read s t) (h' : Read t u) : Read s u :=
  ⟨fun key => (h'.fact? key).trans (h.fact? key), h'.index.trans h.index, h'.config.trans h.config,
    h'.clock.trans h.clock, Nat.le_trans h.renamings h'.renamings⟩

theorem atom?_eq (s : Space ν) (key : String) : s.atom? key = (s.fact? key).map Prod.fst := by
  rw [atom?, fact?, Option.map_map]
  rfl

theorem atom?_of_fact? {s : Space ν} {key : String} {a : Atom ν} {truth : Truth ν}
    (h : s.fact? key = some (a, truth)) : s.atom? key = some a := by
  rw [atom?_eq, h]
  rfl

theorem Read.revalued {s t : Space ν} (h : Read s t) : Revalued s t :=
  ⟨fun key => by rw [atom?_eq, atom?_eq, h.fact? key], h.index, h.config⟩

variable [Scalar ν]

theorem read_touch (s : Space ν) (key : String) (amount : ν) : Read s (s.touch key amount) := by
  refine ⟨?_, rfl, rfl, rfl, Nat.le_refl _⟩
  intro other
  rw [fact?, fact?, touch, Table.get?_modify]
  split
  · rename_i e
    rw [e, Option.map_map]
    rfl
  · rfl

omit [Scalar ν] in
theorem read_renamed (s : Space ν) : Read s { s with renamings := s.renamings + 1 } :=
  ⟨fun _ => rfl, rfl, rfl, rfl, Nat.le_succ _⟩

omit [Scalar ν] in
theorem read_refresh (s : Space ν) (a : Atom ν) : Read s (s.refresh a).2 := by
  unfold refresh
  split
  · exact s.read_renamed
  · exact .refl s

theorem read_examine (s : Space ν) (pattern : Atom ν) (key : String) : Read s (s.examine pattern key).2 :=
  examine_of_touch (P := Read s) (fun t h => h.trans t.read_renamed)
    (fun t key amount h => h.trans (t.read_touch key amount)) pattern key (.refl s)

theorem read_examineAll (s : Space ν) (pattern : Atom ν) (keys : List String) :
    Read s (s.examineAll pattern keys).2 := by
  induction keys generalizing s with
  | nil => exact .refl s
  | cons key keys ih => exact (s.read_examine pattern key).trans (ih _)

/-- A query keeps the stored atoms and their truths, the index and the clock. -/
theorem read_query (s : Space ν) (pattern : Atom ν) : Read s (s.query pattern).2 :=
  s.read_examineAll pattern _

/-! ## Matches -/

omit [Scalar ν] in
theorem refresh_fst (s : Space ν) (a : Atom ν) : (s.refresh a).1 = a.rename s.renamings := by
  unfold refresh
  split
  · rfl
  · rename_i h
    exact (Atom.rename_of_ground (by simpa using h) _).symm

/-- Examining the atom stored under a key, in full. -/
theorem examine_of_fact? {s : Space ν} {key : String} {a : Atom ν} {truth : Truth ν}
    (h : s.fact? key = some (a, truth)) (pattern : Atom ν) : s.examine pattern key =
      if Scalar.lt truth.confidence s.config.minConfidence || !fits pattern a then (none, s)
      else match unify pattern (s.refresh a).1 ∅ with
        | none => (none, (s.refresh a).2)
        | some bindings => (some { atom := a, bindings, score := truth.score },
          (s.refresh a).2.touch key (s.refresh a).2.config.accessBoost) := by
  obtain ⟨slot, hslot, e⟩ := Option.map_eq_some_iff.1 h
  obtain ⟨rfl, rfl⟩ := Prod.mk.inj e
  unfold examine
  split
  · rename_i hnone
    cases hslot.symm.trans hnone
  · rename_i found hfound
    obtain rfl : slot = found := Option.some.inj (hslot.symm.trans hfound)
    rfl

/-- What comes of examining the atom stored under a key. -/
theorem examine_eq {s : Space ν} {key : String} {a : Atom ν} {truth : Truth ν}
    (h : s.fact? key = some (a, truth)) (pattern : Atom ν) : (s.examine pattern key).1 =
      if Scalar.lt truth.confidence s.config.minConfidence || !fits pattern a then none
      else (unify pattern (s.refresh a).1 ∅).map fun bindings =>
        { atom := a, bindings, score := truth.score } := by
  rw [examine_of_fact? h]
  split
  · rfl
  · cases unify pattern (s.refresh a).1 ∅ <;> rfl

theorem examine_of_free {s : Space ν} {key : String} (h : s.fact? key = none) (pattern : Atom ν) :
    (s.examine pattern key).1 = none := by
  unfold examine
  rw [Option.map_eq_none_iff.1 h]

theorem examineAll_cons (s : Space ν) (pattern : Atom ν) (key : String) (keys : List String) :
    (s.examineAll pattern (key :: keys)).1 =
      (s.examine pattern key).1.toList ++ ((s.examine pattern key).2.examineAll pattern keys).1 :=
  rfl

/-- Without limits in the way, the matches of a query are those of its candidates. -/
theorem mem_query_iff {s : Space ν} {pattern : Atom ν}
    (hcandidates : (s.candidates pattern).length ≤ s.config.maxCandidates)
    (hresults : (s.examineAll pattern (s.candidates pattern)).1.length ≤ s.config.maxResults)
    (m : Match ν) : m ∈ (s.query pattern).1 ↔ m ∈ (s.examineAll pattern (s.candidates pattern)).1 := by
  have hconfig := (s.read_examineAll pattern (s.candidates pattern)).config
  unfold query
  simp only
  rw [List.take_of_length_le hcandidates, hconfig,
    List.take_of_length_le (by rwa [List.length_mergeSort]), List.mem_mergeSort]

theorem query_eq_singleton {s : Space ν} {pattern : Atom ν} {m : Match ν}
    (hcandidates : (s.candidates pattern).length ≤ s.config.maxCandidates) (hresults : 1 ≤ s.config.maxResults)
    (h : (s.examineAll pattern (s.candidates pattern)).1 = [m]) : (s.query pattern).1 = [m] := by
  have hconfig := (s.read_examineAll pattern (s.candidates pattern)).config
  unfold query
  simp only
  rw [List.take_of_length_le hcandidates, h, hconfig, List.mergeSort_singleton,
    List.take_of_length_le (by simpa using hresults)]

theorem query_eq_nil {s : Space ν} {pattern : Atom ν}
    (h : (s.examineAll pattern ((s.candidates pattern).take s.config.maxCandidates)).1 = []) :
    (s.query pattern).1 = [] := by
  unfold query
  simp only
  rw [h, List.mergeSort_nil, List.take_nil]

/-- A query with one candidate, which is sound and fits, finds it if it unifies. -/
theorem query_of_single {s : Space ν} {pattern : Atom ν} {key : String} {a : Atom ν} {truth : Truth ν}
    (hcandidates : s.candidates pattern = [key]) (hroom : 1 ≤ s.config.maxCandidates ∧ 1 ≤ s.config.maxResults)
    (hfact : s.fact? key = some (a, truth))
    (hsound : Scalar.lt truth.confidence s.config.minConfidence = false) (hfits : fits pattern a = true) :
    (s.query pattern).1 = ((unify pattern (s.refresh a).1 ∅).map fun bindings =>
      { atom := a, bindings, score := truth.score : Match ν }).toList := by
  have hexamine := examine_eq hfact pattern
  rw [hsound, hfits, Bool.not_true, Bool.or_self, if_neg Bool.false_ne_true] at hexamine
  have hall : (s.examineAll pattern [key]).1 = (s.examine pattern key).1.toList := List.append_nil _
  rw [hexamine] at hall
  cases hunify : unify pattern (s.refresh a).1 ∅ with
  | none =>
    rw [hunify] at hall
    exact query_eq_nil (by rwa [hcandidates, List.take_of_length_le hroom.1])
  | some b =>
    rw [hunify] at hall
    exact query_eq_singleton (by rw [hcandidates]; exact hroom.1) hroom.2 (by rwa [hcandidates])

end Space

end Atomspace
