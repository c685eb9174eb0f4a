import Atomspace.Proofs.Agreement
import Atomspace.Proofs.Boosts
import Atomspace.Proofs.Copies
import Atomspace.Proofs.Halting
import Atomspace.Proofs.Inquiries
/-!
# How often a query matches an atom

A query boosts an atom once for each time that it finds it (`Touched`), and it finds an atom as often as the
atom is among its candidates (`Filed.touched_examineAll`). No atom is there twice, unless the head of the pattern is
the symbol that is spelled like the open bucket: such a pattern looks into that bucket twice (`query_once`).
-/

namespace Atomspace

namespace Space

variable {ν : Type} [Scalar ν] {s t u : Space ν} {found found' : List (Match ν)}

/-! ## Boosts by matches -/

/-- How many of the matches are of the atom under a key. -/
def occurrences (key : String) (found : List (Match ν)) : Nat :=
  (found.map fun m => m.atom.key).count key

/-- What was found is boosted once for each time that it was found, and nothing else is. -/
structure Touched (found : List (Match ν)) (s t : Space ν) : Prop extends Read s t where
  slots : ∀ key, t.slots.get? key = (s.slots.get? key).map
    (s.boostedBy (List.replicate (occurrences key found) s.config.accessBoost))

theorem boostedBy_nil (s : Space ν) : s.boostedBy [] = id :=
  rfl

theorem boostedBy_append (s : Space ν) (l m : List ν) (slot : Slot ν) :
    s.boostedBy (l ++ m) slot = s.boostedBy m (s.boostedBy l slot) := by
  cases m with
  | nil => rw [List.append_nil, boostedBy_nil, id]
  | cons amount m => simp [boostedBy, Priority.boostAll]

theorem boostedBy_of_read (h : Read s t) : t.boostedBy = s.boostedBy := by
  unfold boostedBy
  rw [h.config, h.clock]

theorem occurrences_append (key : String) (found found' : List (Match ν)) :
    occurrences key (found ++ found') = occurrences key found + occurrences key found' := by
  rw [occurrences, List.map_append, List.count_append, ← occurrences, ← occurrences]

theorem touched_of_slots (hread : Read s t) (hslots : t.slots = s.slots) : Touched [] s t where
  toRead := hread
  slots key := by
    rw [hslots, show occurrences key ([] : List (Match ν)) = 0 from rfl, List.replicate_zero, boostedBy_nil]
    exact (Option.map_id_apply).symm

theorem Touched.trans (h : Touched found s t) (h' : Touched found' t u) : Touched (found ++ found') s u where
  toRead := h.toRead.trans h'.toRead
  slots key := by
    rw [h'.slots, h.slots, Option.map_map, boostedBy_of_read h.toRead, h.config, occurrences_append,
      List.replicate_add]
    exact Option.map_congr fun slot _ => (boostedBy_append ..).symm

theorem touched_touch (s : Space ν) (m : Match ν) : Touched [m] s (s.touch m.atom.key s.config.accessBoost) where
  toRead := s.read_touch ..
  slots key := by
    rw [touch, Table.get?_modify]
    split
    · rename_i e
      rw [e, show occurrences m.atom.key [m] = 1 from List.count_singleton_self]
      rfl
    · rename_i hne
      rw [show occurrences key [m] = 0 from List.count_eq_zero.2 (by simpa using hne), List.replicate_zero,
        boostedBy_nil]
      exact (Option.map_id_apply).symm

theorem touched_refresh (s : Space ν) (a : Atom ν) : Touched [] s (s.refresh a).2 := by
  refine touched_of_slots (s.read_refresh a) ?_
  unfold refresh
  split <;> rfl

/-- Where slots are under the keys of their atoms, an atom is found under its key. -/
theorem Filed.touched_examine (hs : s.Filed) (pattern : Atom ν) (key : String) :
    Touched (s.examine pattern key).1.toList s (s.examine pattern key).2 ∧
      ∀ m ∈ (s.examine pattern key).1, s.atom? key = some m.atom ∧ m.atom.key = key := by
  unfold examine
  split
  · exact ⟨touched_of_slots (.refl s) rfl, by simp⟩
  · rename_i slot hslot
    have hatom : s.atom? key = some slot.atom := by rw [atom?, hslot]; rfl
    have hkey : slot.atom.key = key := hs.keyed key _ hatom
    simp only
    split
    · exact ⟨touched_of_slots (.refl s) rfl, by simp⟩
    · have hrefresh := s.touched_refresh slot.atom
      split
      · exact ⟨hrefresh, by simp⟩
      · rename_i bindings _
        refine ⟨?_, ?_⟩
        · rw [← hkey]
          exact hrefresh.trans (touched_touch _ { atom := slot.atom, bindings, score := _ })
        · rintro m ⟨⟩
          exact ⟨hatom, hkey⟩

/-- What is found among some keys is boosted for each time, and found under one of them each time. -/
theorem Filed.touched_examineAll (hs : s.Filed) (pattern : Atom ν) (keys : List String) :
    Touched (s.examineAll pattern keys).1 s (s.examineAll pattern keys).2 ∧
      ((s.examineAll pattern keys).1.map fun m => m.atom.key).Sublist keys ∧
      ∀ m ∈ (s.examineAll pattern keys).1, s.atom? m.atom.key = some m.atom := by
  induction keys generalizing s with
  | nil => exact ⟨touched_of_slots (.refl s) rfl, .slnil, nofun⟩
  | cons key keys ih =>
    obtain ⟨htouched, hfound⟩ := hs.touched_examine pattern key
    have hread := s.read_examine pattern key
    obtain ⟨hrest, hsub, hstored⟩ := ih (hs.changes hread.revalued.changes)
    refine ⟨htouched.trans hrest, ?_, ?_⟩
    · rw [examineAll_cons, List.map_append]
      cases hexamine : (s.examine pattern key).1 with
      | none => exact hsub.cons _
      | some m =>
        rw [show (some m).toList.map (fun m => m.atom.key) = [key] from
          congrArg (fun k => [k]) (hfound m hexamine).2]
        exact hsub.cons_cons _
    · intro m hm
      rw [examineAll_cons, List.mem_append] at hm
      rcases hm with hm | hm
      · obtain ⟨hatom, hkey⟩ := hfound m (Option.mem_toList.1 hm)
        rwa [hkey]
      · exact (hread.revalued.atom? _).symm.trans (hstored m hm)

/-! ## Queries -/

/-- The candidates for a pattern are at most the members of two buckets. -/
theorem Distinct.count_candidates_le (hd : s.Distinct) (pattern : Atom ν) (key : String) :
    (s.candidates pattern).count key ≤ 2 := by
  have hbucket (head : String) : (s.bucket head).count key ≤ 1 := List.nodup_iff_count_le_one.1 (hd.bucket head) key
  have hslots := List.nodup_iff_count_le_one.1 hd.slots key
  unfold candidates
  split
  · omega
  · omega
  · omega
  · rw [List.count_append]
    have := hbucket openHead
    rename_i head _ _
    have := hbucket head.key
    omega
  · split
    · exact List.count_le_length.trans (Nat.le_succ 1)
    · exact Nat.zero_le _

/-- A query answers no atom more often than it finds it. -/
theorem occurrences_query_le (s : Space ν) (pattern : Atom ν) (key : String) :
    occurrences key (s.query pattern).1 ≤ occurrences key (s.hits pattern) := by
  have hsub := (List.take_sublist (s.query pattern).2.config.maxResults
    ((s.hits pattern).mergeSort fun m n => Scalar.rankLE n.score m.score)).map fun m => m.atom.key
  have hperm := (List.mergeSort_perm (s.hits pattern) fun m n => Scalar.rankLE n.score m.score).map
    fun m => m.atom.key
  exact (hsub.count_le key).trans (hperm.count_eq key).le

/-- A query boosts what it finds, each time. -/
theorem Filed.touched_query (hs : s.Filed) (pattern : Atom ν) : Touched (s.hits pattern) s (s.query pattern).2 :=
  (hs.touched_examineAll pattern _).1

/-- All that is found is answered, if it is not too much. -/
theorem perm_query (s : Space ν) (pattern : Atom ν) (h : (s.hits pattern).length ≤ s.config.maxResults) :
    (s.query pattern).1.Perm (s.hits pattern) := by
  have hconfig := (s.read_query pattern).config
  have hsorted := List.mergeSort_perm (s.hits pattern) fun m n => Scalar.rankLE n.score m.score
  rw [← hconfig, ← hsorted.length_eq] at h
  exact (List.Perm.of_eq (List.take_of_length_le h)).trans hsorted

/-- A query finds stored atoms and boosts each one as often as it finds it, which is at least as often as it
answers it. That is at most once, except that a pattern whose head is the symbol that is spelled like the open
bucket finds an atom at most twice. -/
theorem query_once (hs : s.Reachable) (pattern : Atom ν) :
    (∀ m ∈ s.hits pattern, s.atom? m.atom.key = some m.atom) ∧ Touched (s.hits pattern) s (s.query pattern).2 ∧
      (∀ key, occurrences key (s.query pattern).1 ≤ occurrences key (s.hits pattern) ∧
        occurrences key (s.hits pattern) ≤ 2) ∧
      (pattern.head? ≠ some (.symbol openHead) →
        ((s.query pattern).1.map fun m => m.atom.key).Nodup ∧ ∀ key, occurrences key (s.hits pattern) ≤ 1) := by
  obtain ⟨-, hsub, hstored⟩ := hs.filed.touched_examineAll pattern
    ((s.candidates pattern).take s.config.maxCandidates)
  have hcount (key : String) : occurrences key (s.hits pattern) ≤ (s.candidates pattern).count key :=
    (hsub.trans (List.take_sublist ..)).count_le key
  refine ⟨hstored, hs.filed.touched_query pattern, fun key => ⟨s.occurrences_query_le pattern key, ?_⟩, fun hhead => ?_⟩
  · exact (hcount key).trans (hs.distinct.count_candidates_le pattern key)
  · have hnodup := List.nodup_iff_count_le_one.1 (hs.distinct.nodup_candidates hs.filed hhead)
    have honce (key : String) : occurrences key (s.hits pattern) ≤ 1 := (hcount key).trans (hnodup key)
    exact ⟨List.nodup_iff_count_le_one.2 fun key => (s.occurrences_query_le pattern key).trans (honce key), honce⟩

/-! ## An atom that is found twice -/

omit [Scalar ν] in
theorem fits_self (a : Atom ν) : fits a a = true := by
  cases h : a.children? <;> simp [fits, h]

/-- An atom without variables that is known well enough is found by itself. -/
theorem examine_self {a : Atom ν} {key : String} {truth : Truth ν} (h : s.fact? key = some (a, truth))
    (hground : a.hasVars = false) (hconfidence : Scalar.lt truth.confidence s.config.minConfidence = false) :
    (s.examine a key).1 = some { atom := a, bindings := ∅, score := truth.score } := by
  rw [examine_eq h, refresh_fst, Atom.rename_of_ground hground, Unifier.unify_of_beq (Atom.beq_self a), hconfidence, fits_self]
  rfl

/-- An expression whose head is spelled like the open bucket. -/
def price : Atom Double :=
  .expr [.symbol "$", .symbol "a"]

/-- A space that holds it. -/
def priced : Space Double :=
  ((empty default).add price).2

theorem reachable_priced : priced.Reachable :=
  ⟨default, .single (.add _ _)⟩

/-- A pattern with a variable for its head finds the expression at most once. -/
theorem query_once_priced : ((priced.query (.expr [.var "h", .symbol "a"])).1.map fun m => m.atom.key).Nodup ∧
    ∀ key, occurrences key (priced.hits (.expr [.var "h", .symbol "a"])) ≤ 1 :=
  (query_once reachable_priced (.expr [.var "h", .symbol "a"])).2.2.2 (by simp [Atom.head?, Atom.children?])

theorem exists_hits_priced : ∃ m : Match Double, m.atom = price ∧ priced.hits price = [m, m] := by
  have hkeys : (priced.candidates price).take priced.config.maxCandidates = ["($ a)", "($ a)"] := by rfl
  have hfact : priced.fact? "($ a)" = some (price, .unknown) := by rfl
  have hread := priced.read_examine price "($ a)"
  have hconfidence : Scalar.lt (Truth.unknown : Truth Double).confidence priced.config.minConfidence = false := by
    decide +kernel
  refine ⟨{ atom := price, bindings := ∅, score := Truth.unknown.score }, rfl, ?_⟩
  rw [hits, hkeys, examineAll_cons, examineAll_cons, examine_self hfact rfl hconfidence,
    examine_self ((hread.fact? _).trans hfact) rfl (hread.config ▸ hconfidence)]
  rfl

/-- As a pattern it finds itself twice, and is answered twice and boosted twice. -/
theorem query_repeats :
    (¬ ∀ (s : Space Double) (pattern : Atom Double), s.Reachable →
      ((s.query pattern).1.map fun m => m.atom.key).Nodup) ∧
    ¬ ∀ (s : Space Double) (pattern : Atom Double), s.Reachable → ∀ key slot, s.slots.get? key = some slot →
      ∃ n ≤ 1, (s.query pattern).2.slots.get? key =
        some (s.boostedBy (List.replicate n s.config.accessBoost) slot) := by
  obtain ⟨m, hm, hhits⟩ := exists_hits_priced
  constructor
  · intro h
    have hroom : 2 ≤ priced.config.maxResults := by decide +kernel
    have hanswer := priced.perm_query price (by rwa [hhits])
    have hnodup := (hanswer.map _).nodup_iff.1 (h priced price reachable_priced)
    rw [hhits] at hnodup
    simp at hnodup
  · intro h
    let level (n : Nat) (slot : Slot Double) : Int :=
      (priced.boostedBy (List.replicate n priced.config.accessBoost) slot).value.priority.shortTerm.rank
    have hlevels : (priced.slots.get? "($ a)").any fun (slot : Slot Double) =>
        decide (level 0 slot ≠ level 2 slot ∧ level 1 slot ≠ level 2 slot) := by decide +kernel
    obtain ⟨slot, hslot, hlevels⟩ := (Option.any_eq_true _ _).1 hlevels
    obtain ⟨hnever, honce⟩ := of_decide_eq_true hlevels
    obtain ⟨n, hn, hboosted⟩ := h priced price reachable_priced _ slot hslot
    have htouched := (reachable_priced.filed.touched_query price).slots "($ a)"
    have htwice : occurrences "($ a)" (priced.hits price) = 2 := by
      rw [hhits, occurrences, List.map_cons, List.map_singleton, hm]
      decide
    rw [hboosted, hslot, htwice] at htouched
    have hsame : level n slot = level 2 slot :=
      congrArg (fun slot => slot.value.priority.shortTerm.rank) (Option.some.inj htouched)
    interval_cases n
    · exact hnever hsame
    · exact honce hsame

end Space

end Atomspace
