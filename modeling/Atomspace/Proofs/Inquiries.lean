import Atomspace.Proofs.Magnitudes
import Atomspace.Proofs.Ranges
/-!
# Reading never changes knowledge

An evaluation with code that does no more than query leaves a space as some queries do that are asked one after
another (`exists_inquire_of_eval`). Queries keep what is known, and touch no atom but those that match
(`Accessed`). To touch an atom does not lower its priorities, as long as boosts and rates are not negative
(`Priority.InRange.atMost_boost`).
-/

namespace Atomspace

variable {ν : Type} [Scalar ν]

/-! ## Priorities -/

/-- Neither level of the first is above that of the second. -/
structure Priority.AtMost (p q : Priority ν) : Prop where
  shortTerm : Scalar.le p.shortTerm q.shortTerm = true
  longTerm : Scalar.le p.longTerm q.longTerm = true

section
variable [Scalar.Accruing ν] {p q r : Priority ν}

theorem Priority.InRange.atMost_self (hp : p.InRange) : p.AtMost p :=
  ⟨Scalar.Accruing.le_refl hp.shortTerm, Scalar.Accruing.le_refl hp.longTerm⟩

theorem Priority.AtMost.trans (hp : p.InRange) (hq : q.InRange) (hr : r.InRange) (h : p.AtMost q)
    (h' : q.AtMost r) : p.AtMost r :=
  ⟨Scalar.Accruing.le_trans hp.shortTerm hq.shortTerm hr.shortTerm h.shortTerm h'.shortTerm,
    Scalar.Accruing.le_trans hp.longTerm hq.longTerm hr.longTerm h.longTerm h'.longTerm⟩

/-- A boost does not lower a priority. -/
theorem Priority.InRange.atMost_boost (hp : p.InRange) {amount rate : ν} (hamount : Scalar.le 0 amount = true)
    (hrate : Scalar.le 0 rate = true) : (p.boost amount rate).InRange ∧ p.AtMost (p.boost amount rate) := by
  obtain ⟨hshort, hshortLE⟩ := Scalar.Accruing.clampUnit_add hp.shortTerm hamount
  have hlong : Scalar.InUnit (p.boost amount rate).longTerm ∧
      Scalar.le p.longTerm (p.boost amount rate).longTerm = true := by
    unfold Priority.boost
    simp only
    split
    · rename_i hgain
      exact Scalar.Accruing.clampUnit_add hp.longTerm
        (Scalar.Accruing.gain_mul hp.shortTerm hshort hgain hrate)
    · exact ⟨hp.longTerm, Scalar.Accruing.le_refl hp.longTerm⟩
  exact ⟨⟨hshort, hlong.1⟩, ⟨hshortLE, hlong.2⟩⟩

end

namespace Space

/-! ## Accesses -/

/-- What is known is kept, and of the stored atoms only those found are touched. If neither the boost of an
access nor the long-term rate is negative, priorities in range stay there and do not fall. -/
structure Accessed (found : List (Match ν)) (s t : Space ν) : Prop extends Read s t where
  keys : t.slots.keys = s.slots.keys
  touched : ∀ key, t.slots.get? key ≠ s.slots.get? key → ∃ m ∈ found, s.atom? key = some m.atom
  raised : Scalar.le 0 s.config.accessBoost = true → Scalar.le 0 s.config.longTermRate = true →
    ∀ key slot, s.slots.get? key = some slot → slot.value.priority.InRange → ∃ slot',
      t.slots.get? key = some slot' ∧ slot'.value.priority.InRange ∧
        slot.value.priority.AtMost slot'.value.priority

variable [Scalar.Accruing ν] {s t u : Space ν} {found found' : List (Match ν)}

theorem accessed_of_slots (hread : Read s t) (hslots : t.slots = s.slots) : Accessed found s t where
  toRead := hread
  keys := by rw [hslots]
  touched key h := absurd (by rw [hslots]) h
  raised _ _ key slot hslot hrange := ⟨slot, hslots ▸ hslot, hrange, hrange.atMost_self⟩

theorem Accessed.trans (h : Accessed found s t) (h' : Accessed found' t u) :
    Accessed (found ++ found') s u where
  toRead := h.toRead.trans h'.toRead
  keys := h'.keys.trans h.keys
  touched := by
    intro key hne
    -- a slot that has changed in the end was touched on the first way or on the second
    by_cases hstill : t.slots.get? key = s.slots.get? key
    · obtain ⟨m, hm, ha⟩ := h'.touched key (hstill ▸ hne)
      exact ⟨m, List.mem_append_right _ hm, (h.revalued.atom? key).symm.trans ha⟩
    · obtain ⟨m, hm, ha⟩ := h.touched key hstill
      exact ⟨m, List.mem_append_left _ hm, ha⟩
  raised := by
    intro hboost hrate key slot hslot hrange
    obtain ⟨between, hbetween, hrange', hle⟩ := h.raised hboost hrate key slot hslot hrange
    rw [← h.config] at hboost hrate
    obtain ⟨last, hlast, hrange'', hle'⟩ := h'.raised hboost hrate key between hbetween hrange'
    exact ⟨last, hlast, hrange'', hle.trans hrange hrange' hrange'' hle'⟩

theorem accessed_refresh (s : Space ν) (a : Atom ν) : Accessed [] s (s.refresh a).2 := by
  refine accessed_of_slots (s.read_refresh a) ?_
  unfold refresh
  split <;> rfl

theorem accessed_touch {key : String} {m : Match ν} (h : s.atom? key = some m.atom) :
    Accessed [m] s (s.touch key s.config.accessBoost) where
  toRead := s.read_touch ..
  keys := Table.keys_modify ..
  touched := by
    intro other hne
    rw [touch, Table.get?_modify] at hne
    split at hne
    · rename_i e
      exact ⟨m, List.mem_singleton_self m, e ▸ h⟩
    · exact absurd rfl hne
  raised := by
    intro hboost hrate other slot hslot hrange
    rw [touch, Table.get?_modify]
    split
    · rename_i e
      obtain ⟨hrange', hle⟩ := hrange.atMost_boost hboost hrate
      exact ⟨_, by rw [← e, hslot]; rfl, hrange', hle⟩
    · exact ⟨slot, hslot, hrange, hrange.atMost_self⟩

theorem accessed_examine (s : Space ν) (pattern : Atom ν) (key : String) :
    Accessed (s.examine pattern key).1.toList s (s.examine pattern key).2 := by
  unfold examine
  split
  · exact accessed_of_slots (.refl s) rfl
  · rename_i slot hslot
    simp only
    split
    · exact accessed_of_slots (.refl s) rfl
    · have hrefresh := s.accessed_refresh slot.atom
      have hatom : (s.refresh slot.atom).2.atom? key = some slot.atom := by
        rw [hrefresh.revalued.atom? key, atom?, hslot]
        rfl
      split
      · exact hrefresh
      · exact hrefresh.trans (accessed_touch hatom)

theorem accessed_examineAll (s : Space ν) (pattern : Atom ν) (keys : List String) :
    Accessed (s.examineAll pattern keys).1 s (s.examineAll pattern keys).2 := by
  induction keys generalizing s with
  | nil => exact accessed_of_slots (.refl s) rfl
  | cons key keys ih => exact (s.accessed_examine pattern key).trans (ih _)

/-! ## One query after another -/

/-- All that matches a pattern among the candidates. A query answers the best of it and touches it all. -/
def hits (s : Space ν) (pattern : Atom ν) : List (Match ν) :=
  (s.examineAll pattern ((s.candidates pattern).take s.config.maxCandidates)).1

/-- Asks one query after another, and collects all that matches on the way. -/
def inquire : List (Atom ν) → Space ν → List (Match ν) × Space ν
  | [], s => ([], s)
  | pattern :: patterns, s =>
    let (found, t) := inquire patterns (s.query pattern).2
    (s.hits pattern ++ found, t)

theorem accessed_query (s : Space ν) (pattern : Atom ν) : Accessed (s.hits pattern) s (s.query pattern).2 :=
  s.accessed_examineAll pattern _

theorem accessed_inquire (patterns : List (Atom ν)) (s : Space ν) :
    Accessed (inquire patterns s).1 s (inquire patterns s).2 := by
  induction patterns generalizing s with
  | nil => exact accessed_of_slots (.refl s) rfl
  | cons pattern patterns ih => exact (s.accessed_query pattern).trans (ih _)

/-- Asking one query. -/
def Asks (s t : Space ν) : Prop :=
  ∃ pattern, t = (s.query pattern).2

omit [Scalar.Accruing ν] in
theorem exists_inquire {s t : Space ν} (h : Relation.ReflTransGen Asks s t) :
    ∃ patterns, t = (inquire patterns s).2 := by
  induction h using Relation.ReflTransGen.head_induction_on with
  | refl => exact ⟨[], rfl⟩
  | head h _ ih =>
    obtain ⟨pattern, rfl⟩ := h
    obtain ⟨patterns, hpatterns⟩ := ih
    exact ⟨pattern :: patterns, hpatterns⟩

omit [Scalar.Accruing ν] in
theorem asks_query (s : Space ν) (pattern : Atom ν) : Asks s (s.query pattern).2 := ⟨pattern, rfl⟩

omit [Scalar.Accruing ν] in
/-- Evaluation comes down to queries when all code that it runs does. -/
theorem exists_inquire_of_eval {e : Evaluator ν} (he : e.registry.Abides Asks) (a : Atom ν) (depth : Nat)
    (s : Space ν) : ∃ patterns, (e.eval a depth s).2 = (inquire patterns s).2 :=
  exists_inquire (Evaluator.eval_abides asks_query he a depth s)

/-- A query touches what matches it, and an evaluation with code that does no more than query touches what
matches the queries on its way. What is known does not change. All standard code does no more than query, and
what function atoms were made for may be any such code. -/
theorem accessed_of_inquiries (s : Space ν) :
    (∀ pattern, Accessed (s.hits pattern) s (s.query pattern).2) ∧
      (∀ code : String → Option (Native ν), (∀ name f, code name = some f → f.Abides Asks) →
        (Registry.standardWith code).Abides Asks) ∧
      ∀ e : Evaluator ν, e.registry.Abides Asks → ∀ a depth, ∃ patterns,
        (e.eval a depth s).2 = (inquire patterns s).2 ∧
          Accessed (inquire patterns s).1 s (inquire patterns s).2 := by
  refine ⟨s.accessed_query, fun code hcode => ?_, fun e he a depth => ?_⟩
  · exact Registry.abides_standardWith asks_query hcode
  · obtain ⟨patterns, hpatterns⟩ := exists_inquire_of_eval he a depth s
    exact ⟨patterns, hpatterns, accessed_inquire patterns s⟩

/-- A space of doubles with the rule that `(f)` is `a`. -/
def versed : Space Double :=
  ((empty default).add (.expr [.symbol "=", .expr [.symbol "f"], .symbol "a"])).2

/-- An evaluator with the standard code, for which there are function atoms, too. -/
def reader : Evaluator Double where
  config := default
  registry := .standardWith fun name => Native.standard.lookup name

/-- Asks for what is equal to `a`, by the function atom for matching. -/
def inquiry : Atom Double :=
  .expr [.function "match", .symbol "&self", .expr [.symbol "=", .var "x", .symbol "a"], .var "x"]

/-- Evaluating the inquiry there leaves the index alone, and the priority of the rule does not fall. -/
theorem accessed_of_inquiries_versed :
    let t := (reader.eval inquiry 8 versed).2
    t.index = versed.index ∧ ∃ old new, versed.slots.get? "(= (f) a)" = some old ∧
      t.slots.get? "(= (f) a)" = some new ∧ old.value.priority.AtMost new.value.priority := by
  intro t
  obtain ⟨-, hstandard, heval⟩ := accessed_of_inquiries versed
  have hreader : reader.registry.Abides Asks := by
    refine hstandard _ fun name f hf => ?_
    obtain ⟨before, after, heq, -⟩ := List.lookup_eq_some_iff.1 hf
    exact Native.abides_standard asks_query (name, f) (heq ▸ by simp)
  obtain ⟨patterns, hpatterns, haccessed⟩ := heval reader hreader inquiry 8
  have hsome : (versed.slots.get? "(= (f) a)").any fun slot =>
      decide (Scalar.InUnit slot.value.priority.shortTerm ∧ Scalar.InUnit slot.value.priority.longTerm) := by
    decide +kernel
  obtain ⟨hstored, hunit⟩ := (Option.any_eq_true_iff_get _ _).1 hsome
  have hold := (Option.some_get hstored).symm
  obtain ⟨hshort, hlong⟩ := of_decide_eq_true hunit
  obtain ⟨new, hnew, -, hle⟩ := haccessed.raised (by decide +kernel) (by decide +kernel) _ _ hold ⟨hshort, hlong⟩
  have ht : t = (inquire patterns versed).2 := hpatterns
  rw [ht]
  exact ⟨haccessed.index, _, new, hold, hnew, hle⟩

end Space

end Atomspace
