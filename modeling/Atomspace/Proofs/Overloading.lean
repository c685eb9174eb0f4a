import Atomspace.Proofs.Declarations
import Atomspace.Proofs.Ranking
import Atomspace.Proofs.Repetition
import Atomspace.Proofs.Shuffles
/-!
# More than one declared type

Of several arrow types declared for a name the first one in the answer to a query counts. The answer is sorted
by score, and among equals in the order in which the buckets list them, the one of `:` before the open one
(`Ranked.first`). So that one is a *foremost* declaration, and each foremost one is the first in some order
(`Space.Shuffled.exists_foremost`, `Evaluator.exists_arityAgrees`). The check for the number of arguments comes
to the same in all orders just if the foremost declarations agree about that number
(`Evaluator.arityAgrees_of_shuffled`).
-/

namespace Atomspace

variable {ν : Type} [Scalar ν]

/-! ## The first of the best -/

/-- What is found first in a list sorted by falling score scores at least as high as all there is to be found,
and what scores as high does not come before it in the list. -/
theorem Ranked.first [Ranked ν] {α β : Type} (score : α → ν) (f : α → Option β) {l : List α} (hl : l.Nodup) {v : β}
    (h : (l.mergeSort fun x y => Scalar.rankLE (score y) (score x)).findSome? f = some v) :
    ∃ x ∈ l, f x = some v ∧ ∀ y ∈ l, (f y).isSome = true → Scalar.rankLE (score y) (score x) = true ∧
      (Scalar.rankLE (score x) (score y) = true → ¬ [y, x].Sublist l) := by
  have hperm := List.mergeSort_perm l fun x y => Scalar.rankLE (score y) (score x)
  have hsorted := Ranked.descending score l
  have hstable {x y : α} (hle : Scalar.rankLE (score x) (score y) = true) (hsub : [y, x].Sublist l) :
      [y, x].Sublist (l.mergeSort fun x y => Scalar.rankLE (score y) (score x)) :=
    List.pair_sublist_mergeSort (fun x y z hxy hyz => Ranked.trans (score z) (score y) (score x) hyz hxy)
      (fun x y => Ranked.total (score y) (score x)) hle hsub
  have hnodup := hperm.nodup_iff.2 hl
  obtain ⟨before, x, after, hsplit, hx, hbefore⟩ := List.findSome?_eq_some_iff.1 h
  rw [hsplit] at hperm hsorted hstable hnodup
  refine ⟨x, hperm.mem_iff.1 (by simp), hx, fun y hy hfound => ⟨?_, fun hle hsub => ?_⟩⟩
  · have hmem := hperm.mem_iff.2 hy
    rw [List.mem_append, List.mem_cons] at hmem
    rcases hmem with hmem | rfl | hmem
    · rw [hbefore y hmem] at hfound
      cases hfound
    · simpa using Ranked.total (score y) (score y)
    · exact List.rel_of_pairwise_cons (List.pairwise_append.1 hsorted).2.1 hmem
  · -- in the sorted list nothing to be found comes before
    have hlast : x ∉ after := (List.nodup_cons.1 (List.nodup_append.1 hnodup).2.1).1
    obtain ⟨front, back, hpair, hfront, hback⟩ := List.sublist_append_iff.1 (hstable hle hsub)
    cases front with
    | nil =>
      obtain rfl : [y, x] = back := hpair
      cases hback with
      | cons _ hsub => exact hlast (hsub.subset (List.mem_cons_of_mem _ List.mem_cons_self))
      | cons_cons _ hsub => exact hlast (hsub.subset List.mem_cons_self)
    | cons z front =>
      obtain ⟨rfl, -⟩ := List.cons.inj hpair
      rw [hbefore _ (hfront.subset List.mem_cons_self)] at hfound
      cases hfound

namespace Space

open Evaluator (typePattern arrowArity?)

variable {s t : Space ν}

/-! ## Declarations in a space -/

/-- The atom under the key is found as the declaration of an arity for the name. -/
inductive Offers (s : Space ν) (name : String) : (key home : String) → ν → Nat → Prop
  | intro {a : Atom ν} {truth : Truth ν} {key home : String} {arity : Nat}
      (held : s.fact? key = some (a, truth))
      (trusted : Scalar.lt truth.confidence s.config.minConfidence = false)
      (filed : headKey? a = some home)
      (declares : a.Declares name arity) : Offers s name key home truth.score arity

/-- The declaration under the key scores at least as high as all others for the name, and if it is filed
openly, higher than those that are filed under `:`. -/
def Foremost (s : Space ν) (name key home : String) (arity : Nat) : Prop :=
  ∃ score, s.Offers name key home score arity ∧ ∀ key' home' score' arity', s.Offers name key' home' score' arity' →
    Scalar.rankLE score' score = true ∧ (Scalar.rankLE score score' = true → home' = ":" → home = ":")

/-- The number of arguments that is read off the answer to the query for the type of a name. -/
def arity? (s : Space ν) (name : String) : Option Nat :=
  (s.query (typePattern name)).1.findSome? arrowArity?

section
variable {name key home : String} {score : ν} {k : Nat}

theorem Offers.home_cases (h : s.Offers name key home score k) : home = ":" ∨ home = openHead := by
  obtain ⟨held, trusted, filed, mark, subject, arrow, parts, rfl, -, ⟨f, hmark, -⟩, -⟩ := h
  cases mark with
  | var x => exact .inr (Option.some.inj filed).symm
  | symbol c =>
    obtain rfl := Atom.symbol.inj hmark
    exact .inl (Option.some.inj filed).symm
  | expr l =>
    rw [Atom.bind_expr] at hmark
    cases hmark
  | _ => cases hmark

theorem Offers.mem_bucket (h : s.Offers name key home score k) (hs : s.Filed) : key ∈ s.bucket home := by
  obtain ⟨held, trusted, filed, declares⟩ := h
  exact (hs.mem_bucket _ _).2 ⟨_, atom?_of_fact? held, filed⟩

variable (hfact : ∀ key, t.fact? key = s.fact? key) (hconfig : t.config = s.config)
include hfact hconfig

/-- What offers an arity is found wherever it is known. -/
theorem Offers.exists_examine (h : s.Offers name key home score k) :
    ∃ m, (t.examine (typePattern name) key).1 = some m ∧ m.score = score ∧ arrowArity? m = some k := by
  obtain @⟨a, truth, _, _, _, held, trusted, filed, declares⟩ := h
  obtain ⟨b, hb⟩ := Evaluator.exists_unify_typePattern declares t.renamings
  refine ⟨{ atom := a, bindings := b, score := truth.score }, ?_, rfl,
    (Evaluator.arrowArity?_eq_some_iff declares.fits hb).2 declares⟩
  exact (t.examine_eq_some_iff _ _ _).2
    ⟨truth, (hfact key).trans held, by rwa [hconfig], declares.fits, hb, rfl⟩

/-- What is found with an arity offers it. -/
theorem exists_offers (hs : s.Filed) {keys : List String} {m : Match ν}
    (hm : m ∈ (t.examineAll (typePattern name) keys).1) (hk : arrowArity? m = some k) :
    m.atom.key ∈ keys ∧ ∃ home, s.Offers name m.atom.key home m.score k := by
  obtain ⟨before, key, after, truth, rfl, hfinds⟩ := (t.mem_examineAll_iff _ _ m).1 hm
  have held : s.fact? key = some (m.atom, truth) := (hfact key).symm.trans hfinds.fact
  have hkey : m.atom.key = key := hs.keyed key m.atom (atom?_of_fact? held)
  have declares := (Evaluator.arrowArity?_eq_some_iff hfinds.fits hfinds.unify).1 hk
  obtain ⟨home, filed⟩ : ∃ home, headKey? m.atom = some home := by
    obtain ⟨mark, _, _, _, hatom, -⟩ := declares
    rw [hatom]
    cases mark <;> exact ⟨_, rfl⟩
  refine ⟨by simp [hkey], home, ?_⟩
  rw [hkey, hfinds.score]
  exact .intro held (hconfig ▸ hfinds.confident) filed declares

end

theorem examineAll_append (s : Space ν) (p : Atom ν) (keys keys' : List String) :
    (s.examineAll p (keys ++ keys')).1 = (s.examineAll p keys).1 ++ ((s.examineAll p keys).2.examineAll p keys').1 := by
  induction keys generalizing s with
  | nil => rfl
  | cons key keys ih =>
    rw [List.cons_append, examineAll_cons, examineAll_cons, ih, List.append_assoc]
    rfl

theorem candidates_typePattern (s : Space ν) (name : String) :
    s.candidates (typePattern name) = s.bucket ":" ++ s.bucket openHead := rfl

section
variable {name key home : String} {score : ν} {k : Nat}

/-- What offers an arity is found in its turn. -/
theorem Offers.exists_turn (h : s.Offers name key home score k) (hfact : ∀ key, t.fact? key = s.fact? key)
    (hconfig : t.config = s.config) (before after : List String) :
    ∃ m back, (t.examineAll (typePattern name) (before ++ key :: after)).1 =
        (t.examineAll (typePattern name) before).1 ++ m :: back ∧ m.score = score ∧ arrowArity? m = some k := by
  have hread := t.read_examineAll (typePattern name) before
  obtain ⟨m, hm, hscore, hk⟩ := h.exists_examine (t := (t.examineAll (typePattern name) before).2)
    (fun key => (hread.fact? key).trans (hfact key)) (hread.config.trans hconfig)
  refine ⟨m, (((t.examineAll (typePattern name) before).2.examine (typePattern name) key).2.examineAll
    (typePattern name) after).1, ?_, hscore, hk⟩
  rw [examineAll_append, examineAll_cons, hm]
  rfl

theorem Offers.exists_mem (h : s.Offers name key home score k) (hfact : ∀ key, t.fact? key = s.fact? key)
    (hconfig : t.config = s.config) {keys : List String} (hkey : key ∈ keys) :
    ∃ m ∈ (t.examineAll (typePattern name) keys).1, m.score = score ∧ arrowArity? m = some k := by
  obtain ⟨before, after, rfl⟩ := List.append_of_mem hkey
  obtain ⟨m, back, hfound, hm⟩ := h.exists_turn hfact hconfig before after
  exact ⟨m, hfound ▸ by simp, hm⟩

end

/-! ## Where nothing is known -/

/-- The truths of all that is stored are as they are from the start. -/
def Unsure (s : Space ν) : Prop := ∀ key a truth, s.fact? key = some (a, truth) → truth = .unknown

theorem Unsure.add (hs : s.Unsure) (b : Atom ν) : (s.add b).2.Unsure := by
  intro key a truth h
  rw [fact?_add] at h
  split at h
  · cases hfact : s.fact? b.key with
    | none =>
      rw [‹key = b.key›, hfact] at h
      cases h
      rfl
    | some fact =>
      rw [‹key = b.key›, hfact] at h
      exact hs _ _ _ (hfact.trans h)
  · exact hs key a truth h

theorem unsure_empty (config : SpaceConfig ν) : (empty config).Unsure :=
  empty_of_add nofun fun _ name _ hs => hs.add (.symbol name)

/-- There all declarations under `:` are foremost. -/
theorem Offers.foremost [Ranked ν] {name key : String} {score : ν} {k : Nat} (h : s.Offers name key ":" score k)
    (hs : s.Unsure) : s.Foremost name key ":" k := by
  have hscore {key' home' : String} {score' : ν} {arity' : Nat} (h : s.Offers name key' home' score' arity') :
      score' = (Truth.unknown : Truth ν).score := by
    obtain ⟨held, -, -, -⟩ := h
    rw [hs _ _ _ held]
  refine ⟨score, h, fun key' home' score' arity' h' => ⟨?_, fun _ _ => rfl⟩⟩
  rw [hscore h, hscore h']
  simpa using Ranked.total (Truth.unknown : Truth ν).score (Truth.unknown : Truth ν).score

/-! ## The declaration that counts -/

section
variable [Ranked ν] {name : String} {k : Nat} (hs : s.Filed) (hd : s.Distinct) (h : Shuffled s t)
  (hcandidates : (s.candidates (typePattern name)).length ≤ s.config.maxCandidates)
  (hresults : (t.hits (typePattern name)).length ≤ s.config.maxResults)

omit [Ranked ν] in
include h hcandidates in
theorem Shuffled.hits_eq : t.hits (typePattern name) =
    (t.examineAll (typePattern name) (t.bucket ":" ++ t.bucket openHead)).1 := by
  have hlength : (t.candidates (typePattern name)).length = (s.candidates (typePattern name)).length :=
    ((h.bucket ":").append (h.bucket openHead)).length_eq
  rw [hits, List.take_of_length_le (by rw [hlength, h.config]; exact hcandidates), candidates_typePattern]

omit [Ranked ν] in
include h hcandidates in
theorem Shuffled.length_hits_le :
    (t.hits (typePattern name)).length ≤ (s.candidates (typePattern name)).length := by
  rw [h.hits_eq hcandidates, candidates_typePattern, ← ((h.bucket ":").append (h.bucket openHead)).length_eq]
  exact length_examineAll_le ..

omit [Ranked ν] in
include h hresults in
theorem Shuffled.arity?_eq : t.arity? name = ((t.hits (typePattern name)).mergeSort fun m n =>
    Scalar.rankLE n.score m.score).findSome? arrowArity? := by
  rw [arity?, query_fst, ← hits, List.take_of_length_le]
  rw [List.length_mergeSort, h.config]
  exact hresults

omit [Ranked ν] in
include hs hd h in
theorem Shuffled.nodup_hits : (t.hits (typePattern name)).Nodup := by
  have ht := h.filed hs hd
  have hcandidates : (t.candidates (typePattern name)).Nodup :=
    (h.distinct hd).nodup_candidates ht (by simp [typePattern, Atom.head?, Atom.children?, openHead])
  have hsub := (ht.touched_examineAll (typePattern name)
    ((t.candidates (typePattern name)).take t.config.maxCandidates)).2.1
  exact ((hsub.trans (List.take_sublist ..)).nodup hcandidates).of_map _

include hs hd h hcandidates hresults in
/-- The declaration that is read off the answer is a foremost one. -/
theorem Shuffled.exists_foremost (hk : t.arity? name = some k) : ∃ key home, s.Foremost name key home k := by
  have hfact := h.fact? hd
  have hread := t.read_examineAll (typePattern name) (t.bucket ":")
  have hfact' (key : String) : (t.examineAll (typePattern name) (t.bucket ":")).2.fact? key = s.fact? key :=
    (hread.fact? key).trans (hfact key)
  rw [h.arity?_eq hresults] at hk
  obtain ⟨x, hx, hxk, hbest⟩ := Ranked.first Match.score arrowArity? (h.nodup_hits hs hd) hk
  rw [h.hits_eq hcandidates] at hx hbest
  obtain ⟨-, home, hoffers⟩ := exists_offers hfact h.config hs hx hxk
  rw [examineAll_append] at hx hbest
  refine ⟨x.atom.key, home, x.score, hoffers, fun key' home' score' arity' hoffers' => ?_⟩
  have hkey' := (h.bucket home').mem_iff.2 (hoffers'.mem_bucket hs)
  rcases hoffers'.home_cases with rfl | rfl
  · obtain ⟨y, hy, rfl, hyk⟩ := hoffers'.exists_mem hfact h.config hkey'
    obtain ⟨hle, hfirst⟩ := hbest y (List.mem_append_left _ hy) (by rw [hyk]; rfl)
    refine ⟨hle, fun htie _ => hoffers.home_cases.resolve_right ?_⟩
    -- the open bucket comes second
    rintro rfl
    have hx : x ∈ ((t.examineAll (typePattern name) (t.bucket ":")).2.examineAll (typePattern name)
        (t.bucket openHead)).1 := by
      refine (List.mem_append.1 hx).resolve_left fun hx => ?_
      have hlisted := (h.bucket ":").mem_iff.1 (exists_offers hfact h.config hs hx hxk).1
      exact absurd (hs.eq_of_mem_bucket hlisted (hoffers.mem_bucket hs)) (by decide)
    exact hfirst htie ((List.singleton_sublist.2 hy).append (List.singleton_sublist.2 hx))
  · obtain ⟨y, hy, rfl, hyk⟩ := hoffers'.exists_mem hfact' (hread.config.trans h.config) hkey'
    exact ⟨(hbest y (List.mem_append_right _ hy) (by rw [hyk]; rfl)).1, fun _ => (absurd · (by decide))⟩

omit [Ranked ν] in
include hs hd h hcandidates hresults in
/-- If there is any declaration, one is read off the answer. -/
theorem Shuffled.arity?_ne_none {key home : String} {score : ν} (hoffers : s.Offers name key home score k) :
    t.arity? name ≠ none := by
  intro hnone
  have hkey : key ∈ t.bucket ":" ++ t.bucket openHead := by
    rw [List.mem_append, (h.bucket ":").mem_iff, (h.bucket openHead).mem_iff]
    rcases hoffers.home_cases with rfl | rfl
    · exact .inl (hoffers.mem_bucket hs)
    · exact .inr (hoffers.mem_bucket hs)
  obtain ⟨m, hmem, -, hm⟩ := hoffers.exists_mem (h.fact? hd) h.config hkey
  rw [h.arity?_eq hresults, List.findSome?_eq_none_iff, h.hits_eq hcandidates] at hnone
  rw [hnone m (List.mem_mergeSort.2 hmem)] at hm
  cases hm

include hs hd h hcandidates hresults in
/-- A foremost declaration that is the first in its bucket is the one that is read off the answer. -/
theorem Shuffled.arity?_of_foremost {key home : String} (hforemost : s.Foremost name key home k) {rest : List String}
    (hfirst : t.bucket home = key :: rest) : t.arity? name = some k := by
  have hfact := h.fact? hd
  obtain ⟨score, hoffers, hbest⟩ := hforemost
  obtain ⟨before, after, hkeys, hbefore⟩ : ∃ before after, t.bucket ":" ++ t.bucket openHead = before ++ key :: after ∧
      ∀ other ∈ before, other ∈ t.bucket ":" ∧ home = openHead := by
    rcases hoffers.home_cases with rfl | rfl
    · exact ⟨[], rest ++ t.bucket openHead, by rw [hfirst]; rfl, nofun⟩
    · exact ⟨t.bucket ":", rest, by rw [hfirst], fun _ hother => ⟨hother, rfl⟩⟩
  obtain ⟨m, back, hfound, rfl, hm⟩ := hoffers.exists_turn hfact h.config before after
  have hhits : t.hits (typePattern name) = (t.examineAll (typePattern name) before).1 ++ m :: back := by
    rw [h.hits_eq hcandidates, hkeys, hfound]
  obtain ⟨v, hv⟩ := Option.ne_none_iff_exists'.1 (h.arity?_ne_none hs hd hcandidates hresults hoffers)
  rw [hv]
  rw [h.arity?_eq hresults] at hv
  obtain ⟨x, hx, hxk, hchosen⟩ := Ranked.first Match.score arrowArity? (h.nodup_hits hs hd) hv
  obtain ⟨hle, hearliest⟩ := hchosen m (by simp [hhits]) (by rw [hm]; rfl)
  obtain ⟨-, home', hoffers'⟩ := exists_offers hfact h.config hs (h.hits_eq hcandidates ▸ hx) hxk
  obtain ⟨hle', hhome⟩ := hbest _ _ _ _ hoffers'
  rw [hhits, List.mem_append, List.mem_cons] at hx
  rcases hx with hx | rfl | hx
  · -- what comes before is filed under `:`, and would go before
    obtain ⟨hlisted, rfl⟩ := hbefore _ (exists_offers hfact h.config hs hx hxk).1
    have hcolon := hs.eq_of_mem_bucket (hoffers'.mem_bucket hs) ((h.bucket ":").mem_iff.1 hlisted)
    exact absurd (hhome hle hcolon) (by decide)
  · exact hxk.symm.trans hm
  · rw [hhits] at hearliest
    refine absurd ?_ (hearliest hle')
    exact (List.nil_sublist _).append ((List.singleton_sublist.2 hx).cons_cons m)

end

end Space

namespace Evaluator

open Space (Shuffled Foremost)

theorem arityAgrees_eq {head : Atom ν} {name : String} (hname : declaredName? head = some name) (count : Nat)
    (s : Space ν) (path : List String) :
    (arityAgrees head count { space := s, path }).1 = (s.arity? name).all (· == count) := by
  unfold arityAgrees
  rw [hname]
  rfl

section
variable [Ranked ν] {s : Space ν} (hs : s.Reachable) {head : Atom ν} {name : String}
  (hname : declaredName? head = some name)
  (hcandidates : (s.candidates (typePattern name)).length ≤ s.config.maxCandidates)
  (hresults : ∀ t, Shuffled s t → (t.hits (typePattern name)).length ≤ s.config.maxResults) (count : Nat)
include hs hname hcandidates hresults

/-- In every order a foremost declaration decides, if there is any declaration. -/
theorem arityAgrees_cases {t : Space ν} (ht : Shuffled s t) (path : List String) :
    ((arityAgrees head count { space := t, path }).1 = true ∧ ∀ key home k, ¬ s.Foremost name key home k) ∨
      ∃ key home k, s.Foremost name key home k ∧
        (arityAgrees head count { space := t, path }).1 = (k == count) := by
  rw [arityAgrees_eq hname]
  cases hk : t.arity? name with
  | some k =>
    obtain ⟨key, home, hforemost⟩ := ht.exists_foremost hs.filed hs.distinct hcandidates (hresults t ht) hk
    exact .inr ⟨key, home, k, hforemost, rfl⟩
  | none =>
    refine .inl ⟨rfl, fun key home k => ?_⟩
    rintro ⟨score, hoffers, -⟩
    exact ht.arity?_ne_none hs.filed hs.distinct hcandidates (hresults t ht) hoffers hk

/-- Each foremost declaration decides in some order. -/
theorem exists_arityAgrees {key home : String} {k : Nat} (hforemost : s.Foremost name key home k) :
    ∃ t, Shuffled s t ∧ ∀ path, (arityAgrees head count { space := t, path }).1 = (k == count) := by
  have hkey : key ∈ s.bucket home := by
    obtain ⟨score, hoffers, -⟩ := hforemost
    exact hoffers.mem_bucket hs.filed
  have ht := Space.shuffled_promote hkey
  have hfirst : (s.promote home key).bucket home = key :: (s.bucket home).erase key := by
    rw [Space.bucket_promote hkey, if_pos rfl]
  refine ⟨s.promote home key, ht, fun path => ?_⟩
  rw [arityAgrees_eq hname, ht.arity?_of_foremost hs.filed hs.distinct hcandidates (hresults _ ht) hforemost hfirst]
  rfl

/-- In some order the check comes to what a foremost declaration says of the number of arguments, for each of
them, and to nothing else; without any declaration the number agrees. So the order makes no difference just if
the foremost declarations say the same. -/
theorem arityAgrees_of_shuffled :
    (∀ b, (∃ t path, Shuffled s t ∧ (arityAgrees head count { space := t, path }).1 = b) ↔
      (b = true ∧ ∀ key home k, ¬ s.Foremost name key home k) ∨
        ∃ key home k, s.Foremost name key home k ∧ b = (k == count)) ∧
    ((∀ t u path path', Shuffled s t → Shuffled s u → (arityAgrees head count { space := t, path }).1 =
        (arityAgrees head count { space := u, path := path' }).1) ↔
      ∀ key home k key' home' k', s.Foremost name key home k → s.Foremost name key' home' k' →
        (k = count ↔ k' = count)) := by
  have hcases {t : Space ν} (ht : Shuffled s t) (path : List String) :=
    arityAgrees_cases hs hname hcandidates hresults count ht path
  have hexists {key home : String} {k : Nat} (hforemost : s.Foremost name key home k) :=
    exists_arityAgrees hs hname hcandidates hresults count hforemost
  constructor
  · intro b
    constructor
    · rintro ⟨t, path, ht, rfl⟩
      exact hcases ht path
    · rintro (⟨rfl, hnone⟩ | ⟨key, home, k, hforemost, rfl⟩)
      · refine ⟨s, [], .refl s, ?_⟩
        rcases hcases (.refl s) [] with ⟨htrue, -⟩ | ⟨key, home, k, hforemost, -⟩
        · exact htrue
        · exact absurd hforemost (hnone key home k)
      · obtain ⟨t, ht, hvalue⟩ := hexists hforemost
        exact ⟨t, [], ht, hvalue []⟩
  · constructor
    · intro hsame key home k key' home' k' hforemost hforemost'
      obtain ⟨t, ht, hvalue⟩ := hexists hforemost
      obtain ⟨u, hu, hvalue'⟩ := hexists hforemost'
      have heq := hsame t u [] [] ht hu
      rw [hvalue, hvalue'] at heq
      rw [← beq_iff_eq, heq, beq_iff_eq]
    · intro hagree t u path path' ht hu
      rcases hcases ht path with ⟨ht, hnone⟩ | ⟨key, home, k, hforemost, ht⟩ <;>
        rcases hcases hu path' with ⟨hu, hnone'⟩ | ⟨key', home', k', hforemost', hu⟩
      · rw [ht, hu]
      · exact absurd hforemost' (hnone key' home' k')
      · exact absurd hforemost (hnone' key home k)
      · rw [ht, hu, Bool.eq_iff_iff, beq_iff_eq, beq_iff_eq]
        exact hagree key home k key' home' k' hforemost hforemost'

end

/-! ## Two declarations for one name -/

/-- The declaration of `f` as a function of arguments of type `A`. -/
def declaration (arity : Nat) : Atom Double :=
  .expr [.symbol ":", .symbol "f", .expr (.symbol "->" :: (List.replicate arity (.symbol "A") ++ [.symbol "B"]))]

theorem declares_declaration (arity : Nat) : (declaration arity).Declares "f" arity :=
  ⟨_, _, _, _, rfl, by simp, ⟨fun _ => default, rfl, rfl⟩, fun _ _ _ => rfl⟩

/-- A space that was told first that `f` takes so many arguments, and then that it takes so many. -/
def told (first second : Nat) : Space Double :=
  (((Space.empty default).add (declaration first)).2.add (declaration second)).2

theorem reachable_told (first second : Nat) : (told first second).Reachable :=
  ⟨default, .tail (.single (.add _ _)) (.add _ _)⟩

theorem unsure_told (first second : Nat) : (told first second).Unsure :=
  ((Space.unsure_empty default).add _).add _

theorem shuffled_told : Shuffled (told 1 2) (told 2 1) := by
  refine Space.shuffled_add ⟨default, .refl⟩ (by decide +kernel) ?_ ?_
  · rintro children ⟨⟩
    decide +kernel
  · rintro children ⟨⟩
    decide +kernel

theorem foremost_first : (told 1 2).Foremost "f" (declaration 1).key ":" 1 :=
  (Space.Offers.intro (by rfl) (by decide +kernel) rfl (declares_declaration 1)).foremost (unsure_told 1 2)

theorem foremost_second : (told 1 2).Foremost "f" (declaration 2).key ":" 2 :=
  (Space.Offers.intro (by rfl) (by decide +kernel) rfl (declares_declaration 2)).foremost (unsure_told 1 2)

theorem length_candidates_told :
    ((told 1 2).candidates (typePattern "f")).length ≤ (told 1 2).config.maxCandidates := by
  have htwo : ((told 1 2).candidates (typePattern "f")).length = 2 := by rfl
  rw [htwo]
  decide +kernel

theorem length_hits_told {t : Space Double} (h : Shuffled (told 1 2) t) :
    (t.hits (typePattern "f")).length ≤ (told 1 2).config.maxResults := by
  have htwo : ((told 1 2).candidates (typePattern "f")).length = 2 := by rfl
  refine (h.length_hits_le length_candidates_told).trans ?_
  rw [htwo]
  decide +kernel

/-- Whether a call of `f` with one argument agrees depends on the order. -/
theorem arityAgrees_told :
    (∃ t path, Shuffled (told 1 2) t ∧ (arityAgrees (.symbol "f") 1 { space := t, path }).1 = true) ∧
      ∃ t path, Shuffled (told 1 2) t ∧ (arityAgrees (.symbol "f") 1 { space := t, path }).1 = false := by
  have hname : declaredName? (.symbol "f" : Atom Double) = some "f" := rfl
  have hverdict := (arityAgrees_of_shuffled (reachable_told 1 2) hname length_candidates_told
    (fun _ => length_hits_told) 1).1
  exact ⟨(hverdict true).2 (.inr ⟨_, _, _, foremost_first, rfl⟩),
    (hverdict false).2 (.inr ⟨_, _, _, foremost_second, rfl⟩)⟩

theorem arity?_told : (told 1 2).arity? "f" = some 1 ∧ (told 2 1).arity? "f" = some 2 :=
  have hs := reachable_told 1 2
  ⟨(Shuffled.refl _).arity?_of_foremost hs.filed hs.distinct length_candidates_told (length_hits_told (.refl _))
      foremost_first (by rfl),
    shuffled_told.arity?_of_foremost hs.filed hs.distinct length_candidates_told (length_hits_told shuffled_told)
      foremost_second (by rfl)⟩

/-- Two spaces that hold the same in different orders do not agree about it. -/
theorem arityAgrees_differs :
    ¬ ∀ (s t : Space Double) (name : String) (count : Nat) (path : List String), s.Reachable → t.Reachable →
      Shuffled s t → (arityAgrees (.symbol name) count { space := s, path }).1 =
        (arityAgrees (.symbol name) count { space := t, path }).1 := by
  intro h
  have hsame := h (told 1 2) (told 2 1) "f" 1 [] (reachable_told 1 2) (reachable_told 2 1) shuffled_told
  rw [arityAgrees_eq rfl, arityAgrees_eq rfl, arity?_told.1, arity?_told.2] at hsame
  exact absurd hsame (by decide)

end Evaluator

end Atomspace
