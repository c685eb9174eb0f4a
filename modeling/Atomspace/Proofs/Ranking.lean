import Atomspace.Proofs.Retrieval
import Atomspace.Proofs.Writing
/-!
# What a query answers

A query takes its candidates one after the other, and the number it renames the next one by depends on
those before (`numberAt`). `mem_examineAll_iff` says which matches come of that. The answer is the
beginning of their ranked list, so what is cut off scores no higher than what is left (`Ranked.cut`).

`query_answer` sums up: each match is a stored atom, its bindings make it equal to the pattern, and no
candidate is left out but for a full list of matches that score at least as high.
-/

namespace Atomspace

variable {ν : Type} [Scalar ν]

/-! ## Best first -/

section
variable {α : Type} [Ranked ν] (score : α → ν) (l : List α) (n : Nat)

theorem Ranked.descending :
    (l.mergeSort fun x y => Scalar.rankLE (score y) (score x)).Pairwise fun x y =>
      Scalar.rankLE (score y) (score x) = true :=
  List.pairwise_mergeSort (fun x y z hxy hyz => Ranked.trans (score z) (score y) (score x) hyz hxy)
    (fun x y => Ranked.total (score y) (score x)) l

/-- Of a list that is sorted by falling score and then cut, an element stays, or it is cut off behind
others that score at least as high. -/
theorem Ranked.cut {x : α} (hx : x ∈ l) :
    let best := (l.mergeSort fun x y => Scalar.rankLE (score y) (score x)).take n
    x ∈ best ∨ best.length = n ∧ ∀ y ∈ best, Scalar.rankLE (score x) (score y) = true := by
  have hsorted := Ranked.descending score l
  have hmem := (List.mergeSort_perm l fun x y => Scalar.rankLE (score y) (score x)).mem_iff.2 hx
  generalize l.mergeSort (fun x y => Scalar.rankLE (score y) (score x)) = sorted at hsorted hmem
  rw [← List.take_append_drop n sorted, List.mem_append] at hmem
  rcases hmem with hmem | hmem
  · exact .inl hmem
  · have hlong : n < sorted.length := by
      have := List.length_pos_of_mem hmem
      rw [List.length_drop] at this
      omega
    rw [← List.take_append_drop n sorted, List.pairwise_append] at hsorted
    refine .inr ⟨by rw [List.length_take]; omega, fun y hy => ?_⟩
    exact hsorted.2.2 y hy x hmem

end

namespace Space

/-! ## One candidate after the other -/

/-- A query renames the atom under the key: it is confident enough, of the right length, and has
variables. -/
def uses (s : Space ν) (p : Atom ν) (key : String) : Bool :=
  (s.fact? key).any fun fact =>
    !(Scalar.lt fact.2.confidence s.config.minConfidence || !fits p fact.1) && fact.1.hasVars

/-- The number by which a query renames the candidate that comes after the given ones. -/
def numberAt (s : Space ν) (p : Atom ν) (before : List String) : Nat :=
  s.renamings + before.countP (s.uses p)

/-- The match of a pattern with the atom under a key, renamed by a number. -/
structure Finds (s : Space ν) (p : Atom ν) (n : Nat) (key : String) (truth : Truth ν) (m : Match ν) :
    Prop where
  fact : s.fact? key = some (m.atom, truth)
  confident : Scalar.lt truth.confidence s.config.minConfidence = false
  fits : fits p m.atom = true
  unify : unify p (m.atom.rename n) ∅ = some m.bindings
  score : m.score = truth.score

section
variable {s t : Space ν} {p : Atom ν}

theorem Read.finds_iff (h : Read s t) (n : Nat) (key : String) (truth : Truth ν) (m : Match ν) :
    t.Finds p n key truth m ↔ s.Finds p n key truth m := by
  have hiff (u : Space ν) : u.Finds p n key truth m ↔ u.fact? key = some (m.atom, truth) ∧
      Scalar.lt truth.confidence u.config.minConfidence = false ∧ Space.fits p m.atom = true ∧
      Atomspace.unify p (m.atom.rename n) ∅ = some m.bindings ∧ m.score = truth.score :=
    ⟨fun ⟨h1, h2, h3, h4, h5⟩ => ⟨h1, h2, h3, h4, h5⟩, fun ⟨h1, h2, h3, h4, h5⟩ => ⟨h1, h2, h3, h4, h5⟩⟩
  rw [hiff, hiff, h.fact?, h.config]

theorem Read.uses (h : Read s t) : t.uses p = s.uses p := by
  funext key
  unfold Space.uses
  rw [h.fact?, h.config]

omit [Scalar ν] in
theorem renamings_refresh (s : Space ν) (a : Atom ν) :
    (s.refresh a).2.renamings = s.renamings + if a.hasVars then 1 else 0 := by
  unfold refresh
  split <;> rfl

theorem renamings_examine_uses (s : Space ν) (p : Atom ν) (key : String) :
    (s.examine p key).2.renamings = s.renamings + if s.uses p key then 1 else 0 := by
  unfold examine Space.uses fact?
  cases s.slots.get? key with
  | none => rfl
  | some slot =>
    simp only [Option.map_some, Option.any_some]
    split
    · rename_i hskip
      simp [hskip]
    · rename_i hkeep
      simp only [Bool.eq_false_iff.2 hkeep, Bool.not_false, Bool.true_and, ← renamings_refresh]
      split <;> rfl

theorem examine_eq_some_iff (s : Space ν) (p : Atom ν) (key : String) (m : Match ν) :
    (s.examine p key).1 = some m ↔ ∃ truth, s.Finds p s.renamings key truth m := by
  cases hfact : s.fact? key with
  | none =>
    rw [examine_of_free hfact]
    refine ⟨fun h => (by cases h), ?_⟩
    rintro ⟨truth, h⟩
    exact absurd (hfact.symm.trans h.fact) (by simp)
  | some fact =>
    obtain ⟨a, truth⟩ := fact
    rw [examine_eq hfact, refresh_fst]
    constructor
    · intro h
      split at h
      · cases h
      · rename_i hkeep
        rw [Bool.or_eq_true, Bool.not_eq_true', not_or, Bool.not_eq_true, Bool.not_eq_false] at hkeep
        obtain ⟨b, hb, rfl⟩ := Option.map_eq_some_iff.1 h
        exact ⟨truth, hfact, hkeep.1, hkeep.2, hb, rfl⟩
    · rintro ⟨truth', h⟩
      obtain ⟨rfl, rfl⟩ := Prod.mk.inj (Option.some.inj (hfact.symm.trans h.fact))
      rw [if_neg (by simp [h.confident, h.fits]), h.unify, Option.map_some, ← h.score]

/-- Each match comes of one candidate, renamed by the number that was next when its turn came. -/
theorem mem_examineAll_iff (s : Space ν) (p : Atom ν) (keys : List String) (m : Match ν) :
    m ∈ (s.examineAll p keys).1 ↔ ∃ before key after truth, keys = before ++ key :: after ∧
      s.Finds p (s.numberAt p before) key truth m := by
  induction keys generalizing s with
  | nil => simp [examineAll]
  | cons key keys ih =>
    have hread := s.read_examine p key
    have hnumber (before : List String) :
        (s.examine p key).2.numberAt p before = s.numberAt p (key :: before) := by
      unfold numberAt
      rw [renamings_examine_uses, hread.uses, List.countP_cons]
      omega
    rw [examineAll_cons, List.mem_append, Option.mem_toList, examine_eq_some_iff, ih]
    simp only [hread.finds_iff, hnumber]
    constructor
    · rintro (⟨truth, h⟩ | ⟨before, key', after, truth, rfl, h⟩)
      · exact ⟨[], key, keys, truth, rfl, h⟩
      · exact ⟨key :: before, key', after, truth, rfl, h⟩
    · rintro ⟨before, key', after, truth, heq, h⟩
      cases before with
      | nil =>
        obtain ⟨rfl, rfl⟩ := List.cons.inj heq
        exact .inl ⟨truth, h⟩
      | cons _ before =>
        obtain ⟨rfl, rfl⟩ := List.cons.inj heq
        exact .inr ⟨before, key', after, truth, rfl, h⟩

end

/-! ## The answer -/

/-- Keys tell the atoms of a set apart, and it has in it the pattern, what is stored and what a query
renames that to. -/
structure Discerned (D : Set (Atom ν)) (s : Space ν) (p : Atom ν) : Prop where
  faithful : Atom.Faithful D
  renamed : ∀ x (n : Nat), .var x ∈ D → .var (Atom.numbered x n) ∈ D
  pattern : p ∈ D
  stored : ∀ key a, s.atom? key = some a → a ∈ D

/-- What the answer to a query has to be. -/
structure Answer (s : Space ν) (p : Atom ν) (found : List (Match ν)) : Prop where
  /-- Each match is a stored atom, and its bindings make the pattern equal to the atom, renamed by some
  number. -/
  justified : ∀ m ∈ found, ∃ truth n, s.fact? m.atom.key = some (m.atom, truth) ∧
    Scalar.lt truth.confidence s.config.minConfidence = false ∧
    m.score = truth.confidence * truth.strength ∧
    m.bindings.subst p = m.bindings.subst (m.atom.rename n) ∧
    (m.atom.hasVars = false → m.bindings.subst p = m.bindings.subst m.atom)
  descending : found.Pairwise fun m n =>
    Scalar.rankLE n.score m.score = true ∧ Scalar.lt m.score n.score = false
  length_le : found.length ≤ s.config.maxResults
  /-- A candidate within the limit that passes the filters and can be made equal to the pattern is
  found, or there are as many matches as there may be, and none of them scores lower. -/
  best : ∀ before key after a truth,
    (s.candidates p).take s.config.maxCandidates = before ++ key :: after →
    s.fact? key = some (a, truth) → Scalar.lt truth.confidence s.config.minConfidence = false →
    fits p a = true →
    (∃ f : String → Atom ν, p.bind f = (a.rename (s.numberAt p before)).bind f) →
    (∃ m ∈ found, m.atom = a ∧ m.score = truth.score) ∨ found.length = s.config.maxResults ∧
      ∀ m ∈ found, Scalar.rankLE truth.score m.score = true ∧ Scalar.lt m.score truth.score = false

theorem query_fst (s : Space ν) (p : Atom ν) : (s.query p).1 =
    ((s.examineAll p ((s.candidates p).take s.config.maxCandidates)).1.mergeSort fun m n =>
      Scalar.rankLE n.score m.score).take s.config.maxResults := by
  unfold query
  simp only
  rw [(s.read_examineAll p _).config]

theorem exists_finds_of_mem_query {s : Space ν} {p : Atom ν} {m : Match ν} (h : m ∈ (s.query p).1) :
    ∃ key truth n, s.Finds p n key truth m := by
  rw [query_fst] at h
  have hm := List.mem_mergeSort.1 (List.mem_of_mem_take h)
  obtain ⟨before, key, after, truth, -, hm⟩ := (s.mem_examineAll_iff p _ m).1 hm
  exact ⟨key, truth, _, hm⟩

section
variable {D : Set (Atom ν)} {s : Space ν} {p : Atom ν}

theorem Discerned.rename_mem (h : Discerned D s p) {a : Atom ν} (ha : a ∈ D) (n : Nat) : a.rename n ∈ D :=
  h.faithful.bind ha fun x hx => h.renamed x n (h.faithful.var_mem ha hx)

theorem Finds.justified (h : Discerned D s p) (hs : s.Filed) {n : Nat} {key : String} {truth : Truth ν}
    {m : Match ν} (hm : s.Finds p n key truth m) : key = m.atom.key ∧
      m.bindings.subst p = m.bindings.subst (m.atom.rename n) := by
  have hatom := atom?_of_fact? hm.fact
  have haD := h.rename_mem (h.stored key m.atom hatom) n
  obtain ⟨heq, -, -⟩ := unify_sound h.faithful h.pattern haD Bindings.acyclic_empty
    (Bindings.within_empty D) hm.unify
  exact ⟨(hs.keyed key m.atom hatom).symm, heq⟩

/-! ## Spaces within a set -/

/-- Where keys tell the atoms apart, an atom is stored as it is. -/
theorem Discerned.share_eq_self (h : Discerned D s p) {a : Atom ν} (ha : a ∈ D) : s.share a = a := by
  have hstored : ∀ c ∈ D, s.stored c = c := by
    intro c hc
    unfold Space.stored
    split
    · rename_i slot hslot
      have hatom : s.atom? c.key = some slot.atom := by rw [atom?, hslot]; rfl
      split
      · rename_i heq
        exact h.faithful.eq_of_beq (h.stored _ _ hatom) hc heq
      · rfl
    · rfl
  cases a with
  | expr l =>
    have hl : l.map s.stored = l := by
      rw [List.map_congr_left fun c hc => hstored c (h.faithful.part ha hc), List.map_id']
    rw [share, hl]
  | _ => rfl

theorem Discerned.assert (h : Discerned D s p) {a : Atom ν} (ha : a ∈ D) (t : Truth ν) :
    Discerned D (s.assert a t).2 p where
  faithful := h.faithful
  renamed := h.renamed
  pattern := h.pattern
  stored key b hb := by
    rcases atom?_assert_cases hb with hb | ⟨-, -, rfl⟩
    · exact h.stored key b hb
    · rwa [h.share_eq_self ha]

/-- A query answers with justified matches, and with the best of them. -/
theorem query_answer [Ranked ν] (hs : s.Reachable) (h : Discerned D s p) :
    Answer s p (s.query p).1 := by
  constructor
  case justified =>
    intro m hm
    obtain ⟨key, truth, n, hm⟩ := exists_finds_of_mem_query hm
    obtain ⟨rfl, heq⟩ := hm.justified h hs.filed
    refine ⟨truth, n, hm.fact, hm.confident, hm.score, heq, fun hground => ?_⟩
    rw [heq, Atom.rename_of_ground hground]
  case descending =>
    rw [query_fst]
    refine ((Ranked.descending Match.score _).sublist (List.take_sublist _ _)).imp fun hle => ?_
    exact ⟨hle, Ranked.not_lt _ _ hle⟩
  case length_le =>
    rw [query_fst]
    exact List.length_take_le _ _
  case best =>
    rw [query_fst]
    intro before key after a truth hkeys hfact hconfident hfits hunifiable
    have haD := h.rename_mem (h.stored key a (atom?_of_fact? hfact)) (s.numberAt p before)
    obtain ⟨b, hb⟩ := Option.isSome_iff_exists.1 ((isSome_unify_iff h.faithful h.pattern haD).2 hunifiable)
    have hm : { atom := a, bindings := b, score := truth.score : Match ν } ∈
        (s.examineAll p ((s.candidates p).take s.config.maxCandidates)).1 :=
      (s.mem_examineAll_iff p _ _).2 ⟨before, key, after, truth, hkeys, hfact, hconfident, hfits, hb, rfl⟩
    rcases Ranked.cut Match.score _ s.config.maxResults hm with hmem | ⟨hfull, hle⟩
    · exact .inl ⟨_, hmem, rfl, rfl⟩
    · exact .inr ⟨hfull, fun m hm => ⟨hle m hm, Ranked.not_lt _ _ (hle m hm)⟩⟩

end

/-- A space that answers with one match, and holds `(p a)` by one observation. -/
def observed : Space Double :=
  ((empty { (default : SpaceConfig Double) with maxResults := 1 }).assert
    (.expr [.symbol "p", .symbol "a"]) (.observed 1)).2

/-- It also holds `(p b)`, by three observations. -/
def rated : Space Double :=
  (observed.assert (.expr [.symbol "p", .symbol "b"]) (.observed 3)).2

theorem observed_reachable : observed.Reachable :=
  ⟨_, .single (.assert _ _ _)⟩

theorem rated_reachable : rated.Reachable :=
  observed_reachable.step (.assert _ _ _)

theorem plain_fact {x : Atom Double} (hx : Atom.Plain x) : Atom.Plain (.expr [.symbol "p", x]) :=
  .expr (List.forall_mem_cons.2 ⟨.symbol (by decide), List.forall_mem_singleton.2 hx⟩)

theorem observed_discerned : Discerned {a | Atom.Plain a} observed (.expr [.symbol "p", .var "x"]) := by
  refine Discerned.assert ⟨Atom.faithful_plain, fun _ n h => h.var_numbered n, ?_, ?_⟩ ?_ _
  · exact plain_fact (.var (by decide))
  · have hnames : protectedNames.all Atom.isName = true := by decide
    intro key a ha
    obtain ⟨hname, rfl⟩ := atom?_empty ha
    exact .symbol (List.all_eq_true.1 hnames _ hname)
  · exact plain_fact (.symbol (by decide))

theorem rated_discerned : Discerned {a | Atom.Plain a} rated (.expr [.symbol "p", .var "x"]) :=
  observed_discerned.assert (plain_fact (.symbol (by decide))) _

/-- Of the two matches one is returned, and it scores at least as high as `(p b)` does. -/
theorem query_answer_rated : ∃ m, (rated.query (.expr [.symbol "p", .var "x"])).1 = [m] ∧
    Scalar.rankLE (Truth.unknown.merge (.observed 3)).score m.score = true := by
  obtain ⟨-, -, hlength, hbest⟩ := query_answer rated_reachable rated_discerned
  have hplain : Atom.Plain (.expr [.symbol "p", .symbol "b"] : Atom Double) := plain_fact (.symbol (by decide))
  have hnew : observed.fact? "(p b)" = none := fact?_eq_none_iff.2 (by decide +kernel)
  have hfact : rated.fact? "(p b)" =
      some (.expr [.symbol "p", .symbol "b"], Truth.unknown.merge (.observed 3)) := by
    rw [rated, fact?_assert observed_reachable.filed, if_pos (by rfl), hnew]
    simp only [Option.getD_none, observed_discerned.share_eq_self hplain]
  have hcandidates : (rated.candidates (.expr [.symbol "p", .var "x"])).take rated.config.maxCandidates =
    ["(p a)"] ++ "(p b)" :: [] := by decide +kernel
  have hresults : rated.config.maxResults = 1 := by
    rw [rated, observed, config_assert, config_assert, config_empty]
  have hb := hbest _ _ _ _ _ hcandidates hfact (by decide +kernel) (by decide) ⟨fun _ => .symbol "b", by rfl⟩
  rw [hresults] at hlength hb
  rcases hb with ⟨m, hm, -, hscore⟩ | ⟨hone, hle⟩
  · obtain ⟨c, hc⟩ := List.length_eq_one_iff.1 (Nat.le_antisymm hlength (List.length_pos_of_mem hm))
    obtain rfl : m = c := by simpa [hc] using hm
    refine ⟨m, hc, ?_⟩
    simpa only [hscore, Bool.or_self] using Ranked.total m.score m.score
  · obtain ⟨m, hm⟩ := List.length_eq_one_iff.1 hone
    exact ⟨m, hm, (hle m (by simp [hm])).1⟩

end Space

end Atomspace
