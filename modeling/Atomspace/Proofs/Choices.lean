import Atomspace.Agent
import Atomspace.Proofs.Forgetting
import Atomspace.Proofs.Magnitudes
/-!
# Which action is chosen

An agent that does not explore takes one of the actions of the greatest utility above its threshold. The
greatest one is found in the total order of doubles, and what ties with it by value: zeros of both signs tie,
and what is not a number is never above the threshold (`Evaluator.mem_leading_iff`). Each number below a bound
is drawn for some word (`RandomSource.exists_word`), so each action that ties is chosen for one. An agent does
all that by the utilities that it finds when it asks for one after another (`Agent.chooses_measured`).
-/

namespace Atomspace

namespace Double

/-! ## Greatest numbers -/

theorem isNaN_of_lt {x y : Double} (h : Scalar.lt x y = true) : x.value.isNaN = false ∧ y.value.isNaN = false := by
  have hlt : x.value < y.value := of_decide_eq_true h
  exact isNaN_eq_false_of_lt (of_decide_eq_true hlt)

end Double

namespace Scalar

variable {ν α : Type} [Scalar ν] [Ranked ν]

omit [Ranked ν] in
theorem greatest?_eq_none_iff {measure : α → ν} {l : List α} : greatest? measure l = none ↔ l = [] := by
  cases l with
  | nil => exact iff_of_true rfl rfl
  | cons => exact iff_of_false nofun nofun

/-- The greatest element is one of them, and ranks as high as any. -/
theorem greatest?_eq_some {measure : α → ν} {l : List α} {a : α} (h : greatest? measure l = some a) :
    a ∈ l ∧ ∀ b ∈ l, rankLE (measure b) (measure a) = true := by
  have hrefl (x : ν) : rankLE x x = true := by simpa using Ranked.total x x
  have hfold : ∀ (l : List α) (a : α),
      let best := l.foldl (fun b c => if rankLE (measure b) (measure c) then c else b) a
      best ∈ a :: l ∧ ∀ b ∈ a :: l, rankLE (measure b) (measure best) = true := by
    intro l
    induction l with
    | nil => exact fun a => ⟨List.mem_cons_self, List.forall_mem_singleton.2 (hrefl _)⟩
    | cons c l ih =>
      intro a
      obtain ⟨hmem, hbest⟩ := ih (if rankLE (measure a) (measure c) then c else a)
      obtain ⟨hfirst, hrest⟩ := List.forall_mem_cons.1 hbest
      -- the one that is kept ranks as high as both
      have hboth : rankLE (measure a) (measure (if rankLE (measure a) (measure c) then c else a)) = true ∧
          rankLE (measure c) (measure (if rankLE (measure a) (measure c) then c else a)) = true := by
        split
        · rename_i h
          exact ⟨h, hrefl _⟩
        · rename_i h
          exact ⟨hrefl _, (Bool.or_eq_true_iff.1 (Ranked.total _ _)).resolve_left h⟩
      refine ⟨?_, ?_⟩
      · rcases List.mem_cons.1 hmem with hmem | hmem
        · rw [List.foldl_cons, hmem]
          split <;> simp
        · exact List.mem_cons_of_mem _ (List.mem_cons_of_mem _ hmem)
      · rintro b hb
        rw [List.mem_cons, List.mem_cons] at hb
        rcases hb with rfl | rfl | hb
        · exact Ranked.trans _ _ _ hboth.1 hfirst
        · exact Ranked.trans _ _ _ hboth.2 hfirst
        · exact hrest b hb
  cases l with
  | nil => cases h
  | cons b l =>
    cases h
    exact hfold l b

end Scalar

namespace RandomSource

variable {ρ : Type} [RandomSource ρ] {n i : Nat}

/-! ## Draws -/

/-- A choice below a number is below that number, also when no word is in the zone. -/
theorem belowWithin_lt (hn : 0 < n) (draws : Nat) (source : ρ) : (belowWithin n draws source).1 < n := by
  induction draws generalizing source with
  | zero => exact hn
  | succ draws ih =>
    unfold belowWithin
    simp only
    split
    · exact Nat.div_lt_of_lt_mul (Nat.mul_lt_mul_of_pos_right (UInt64.toNat_lt_size _) hn)
    · exact ih _

theorem below_lt (hn : 0 < n) (source : ρ) : (below n source).1 < n := by
  unfold below
  exact belowWithin_lt hn _ source

/-- Each number below another one is what some word comes to. -/
theorem exists_word (hi : i < n) (hn : n ≤ UInt64.size) :
    ∃ word : UInt64, word.toNat * n / UInt64.size = i ∧ word.toNat * n % UInt64.size ≤ zone n := by
  have hsize : UInt64.size = 2 ^ 64 := rfl
  generalize UInt64.size = size at *
  -- the least multiple of `n` from `i * size` on
  obtain ⟨w, hlow, hhigh⟩ : ∃ w, i * size ≤ w * n ∧ w * n < i * size + n := by
    refine ⟨(i * size + (n - 1)) / n, ?_, ?_⟩
    · have hsum := Nat.div_add_mod (i * size + (n - 1)) n
      have hmod := Nat.mod_lt (i * size + (n - 1)) (by omega : n > 0)
      rw [Nat.mul_comm n] at hsum
      omega
    · have hle := Nat.div_mul_le_self (i * size + (n - 1)) n
      omega
  have hnext : (i + 1) * size ≤ n * size := Nat.mul_le_mul_right size hi
  rw [Nat.add_mul, Nat.one_mul] at hnext
  have hw : w < size := by
    refine Nat.lt_of_mul_lt_mul_right (a := n) ?_
    rw [Nat.mul_comm size]
    omega
  have hdiv : w * n / size = i := Nat.div_eq_of_lt_le hlow (by rw [Nat.add_mul]; omega)
  have hmod : w * n % size ≤ n - 1 := by
    have hsum := Nat.div_add_mod (w * n) size
    rw [hdiv, Nat.mul_comm size] at hsum
    omega
  refine ⟨UInt64.ofNat w, ?_⟩
  rw [UInt64.toNat_ofNat', Nat.mod_eq_of_lt (hsize ▸ hw)]
  refine ⟨hdiv, hmod.trans ?_⟩
  rw [zone, Nat.shiftLeft_eq]
  exact Nat.sub_le_sub_right (Nat.le_mul_of_pos_right n (Nat.two_pow_pos _)) 1

theorem below_of_word {source : ρ} (h : (next source).1.toNat * n % UInt64.size ≤ zone n) :
    (below n source).1 = (next source).1.toNat * n / UInt64.size := by
  show (belowWithin n (1048575 + 1) source).1 = _
  unfold belowWithin
  simp only
  rw [if_pos h]

end RandomSource

/-! ## Rated actions -/

namespace Evaluator

section
variable {ν : Type} [Scalar ν]

/-- The utilities of actions, asked for one after another. -/
def measure (e : Evaluator ν) : List (Atom ν) → Space ν → List (Atom ν × Option ν)
  | [], _ => []
  | action :: rest, s => (action, (e.utility action s).1) :: e.measure rest (e.utility action s).2

/-- The rated actions with a utility above a threshold. -/
def clearing (threshold : ν) (rated : List (Atom ν × Option ν)) : List (Atom ν × ν) :=
  rated.filterMap fun r => (r.2.filter fun u => Scalar.lt threshold u).map fun u => (r.1, u)

/-- Those among them whose utility equals the greatest one. -/
def leading (ranked : List (Atom ν × ν)) : List (Atom ν × ν) :=
  ranked.filter fun r => ((Scalar.greatest? Prod.snd ranked).map Prod.snd).any (Scalar.eq r.2)

/-- The action has a utility above the threshold, and no rated action has a greater one. -/
structure Favourite (threshold : ν) (rated : List (Atom ν × Option ν)) (action : Atom ν) (u : ν) : Prop where
  mem : (action, some u) ∈ rated
  above : Scalar.lt threshold u = true
  greatest : ∀ other v, (other, some v) ∈ rated → Scalar.lt threshold v = true → Scalar.le v u = true

theorem map_fst_measure (e : Evaluator ν) (actions : List (Atom ν)) (s : Space ν) :
    (e.measure actions s).map Prod.fst = actions := by
  induction actions generalizing s with
  | nil => rfl
  | cons action rest ih => rw [measure, List.map_cons, ih]

theorem promising_eq (e : Evaluator ν) (threshold : ν) (actions : List (Atom ν)) (s : Space ν) :
    (e.promising threshold actions s).1 = clearing threshold (e.measure actions s) := by
  induction actions generalizing s with
  | nil => rfl
  | cons action rest ih =>
    unfold promising
    rw [measure, clearing, List.filterMap_cons]
    simp only [ih]
    cases (e.utility action s).1.filter fun u => Scalar.lt threshold u <;> rfl

theorem mem_clearing_iff {threshold : ν} {rated : List (Atom ν × Option ν)} {r : Atom ν × ν} :
    r ∈ clearing threshold rated ↔ (r.1, some r.2) ∈ rated ∧ Scalar.lt threshold r.2 = true := by
  unfold clearing
  rw [List.mem_filterMap]
  constructor
  · rintro ⟨⟨action, utility⟩, hmem, h⟩
    obtain ⟨u, hu, rfl⟩ := Option.map_eq_some_iff.1 h
    obtain ⟨rfl, habove⟩ := Option.filter_eq_some_iff.1 hu
    exact ⟨hmem, habove⟩
  · rintro ⟨hmem, habove⟩
    exact ⟨_, hmem, by simp [Option.filter, habove]⟩

end

/-- The favourites are those that lead. -/
theorem mem_leading_iff {threshold : Double} {rated : List (Atom Double × Option Double)} {action : Atom Double}
    {u : Double} : (action, u) ∈ leading (clearing threshold rated) ↔ Favourite threshold rated action u := by
  have hnumber {r : Atom Double × Double} (hr : r ∈ clearing threshold rated) : r.2.value.isNaN = false :=
    (Double.isNaN_of_lt (mem_clearing_iff.1 hr).2).2
  rw [leading, List.mem_filter]
  constructor
  · rintro ⟨hmem, hbest⟩
    obtain ⟨hrated, habove⟩ := mem_clearing_iff.1 hmem
    refine ⟨hrated, habove, fun other v hv hclear => ?_⟩
    cases hgreatest : Scalar.greatest? Prod.snd (clearing threshold rated) with
    | none =>
      rw [hgreatest] at hbest
      cases hbest
    | some best =>
      rw [hgreatest] at hbest
      obtain ⟨hbestMem, hrank⟩ := Scalar.greatest?_eq_some hgreatest
      have hother : (other, v) ∈ clearing threshold rated := mem_clearing_iff.2 ⟨hv, hclear⟩
      have hle := Ranked.not_lt _ _ (hrank _ hother)
      have heq : Scalar.eq u best.2 = true := hbest
      rw [Bool.eq_false_iff, Ne, Double.lt_iff_level (hnumber hbestMem) (hnumber hother)] at hle
      rw [Double.eq_iff_level (hnumber hmem) (hnumber hbestMem)] at heq
      exact (Double.le_iff_level (hnumber hother) (hnumber hmem)).2 (by omega)
  · intro h
    have hmem : (action, u) ∈ clearing threshold rated := mem_clearing_iff.2 ⟨h.mem, h.above⟩
    refine ⟨hmem, ?_⟩
    cases hgreatest : Scalar.greatest? Prod.snd (clearing threshold rated) with
    | none => exact absurd (Scalar.greatest?_eq_none_iff.1 hgreatest) (List.ne_nil_of_mem hmem)
    | some best =>
      obtain ⟨hbestMem, hrank⟩ := Scalar.greatest?_eq_some hgreatest
      have hle := Ranked.not_lt _ _ (hrank _ hmem)
      obtain ⟨hbest, hclear⟩ := mem_clearing_iff.1 hbestMem
      have hge := h.greatest _ _ hbest hclear
      rw [Bool.eq_false_iff, Ne, Double.lt_iff_level (hnumber hbestMem) (hnumber hmem)] at hle
      rw [Double.le_iff_level (hnumber hbestMem) (hnumber hmem)] at hge
      exact (Double.eq_iff_level (hnumber hmem) (hnumber hbestMem)).2 (by omega)

/-- If any action has a utility above the threshold, some action is a favourite. -/
theorem leading_ne_nil {threshold : Double} {rated : List (Atom Double × Option Double)}
    (h : clearing threshold rated ≠ []) : leading (clearing threshold rated) ≠ [] := by
  have hsome : Scalar.greatest? Prod.snd (clearing threshold rated) ≠ none := mt Scalar.greatest?_eq_none_iff.1 h
  obtain ⟨best, hbest⟩ := Option.ne_none_iff_exists'.1 hsome
  have hmem := (Scalar.greatest?_eq_some hbest).1
  have hnumber := (Double.isNaN_of_lt (mem_clearing_iff.1 hmem).2).2
  refine List.ne_nil_of_mem (a := best) (List.mem_filter.2 ⟨hmem, ?_⟩)
  rw [hbest]
  exact (Double.eq_iff_level hnumber hnumber).2 rfl

end Evaluator

namespace Agent

variable {ρ : Type} [RandomSource ρ]

open Evaluator

/-! ## Choices -/

section
variable {ν α : Type} (a : Agent ρ ν) {choices : List α}

theorem pick_eq (choices : List α) :
    (a.pick choices).1 = choices[(RandomSource.below choices.length a.random).1]? := by
  unfold pick
  generalize RandomSource.below choices.length a.random = draw
  rfl

theorem exists_pick (h : choices ≠ []) : ∃ x ∈ choices, (a.pick choices).1 = some x := by
  have hlt := RandomSource.below_lt (List.length_pos_iff.2 h) a.random
  exact ⟨_, List.getElem_mem hlt, by rw [pick_eq, List.getElem?_eq_getElem hlt]⟩

/-- For each of the things there is a word that makes it the one. -/
theorem exists_word_pick (hsize : choices.length ≤ UInt64.size) {x : α} (hx : x ∈ choices) :
    ∃ word : UInt64, ∀ {σ : Type} [RandomSource σ] (b : Agent σ ν),
      (RandomSource.next b.random).1 = word → (b.pick choices).1 = some x := by
  obtain ⟨i, hi, hget⟩ := List.getElem_of_mem hx
  obtain ⟨word, hword, hzone⟩ := RandomSource.exists_word hi hsize
  refine ⟨word, fun {σ} _ b hnext => ?_⟩
  rw [← hnext] at hword hzone
  rw [pick_eq, RandomSource.below_of_word hzone, hword, List.getElem?_eq_getElem hi, hget]

end

section
variable {ν : Type} [Scalar ν]

/-- The agent with another random source. -/
def reseeded {σ : Type} (a : Agent ρ ν) (source : σ) : Agent σ ν where
  config := a.config
  evaluator := a.evaluator
  space := a.space
  random := source
  phase := a.phase

/-- The utilities of actions as the agent finds them one after another. -/
def measured (a : Agent ρ ν) (actions : List (Atom ν)) : List (Atom ν × Option ν) :=
  a.evaluator.measure actions a.space

/-- The first number that is drawn does not tell the agent to explore. -/
def Exploits (a : Agent ρ ν) : Prop :=
  Scalar.lt (RandomSource.uniform a.random).1 a.config.exploration = false

/-- What an agent that does not explore chooses. -/
theorem select_eq {a : Agent ρ ν} {actions : List (Atom ν)} (hne : actions ≠ []) (h : a.Exploits) :
    ∃ b : Agent ρ ν, b.random = (RandomSource.next a.random).2 ∧ (a.select actions).1 =
      match leading (clearing a.config.utilityThreshold (a.measured actions)) with
      | [] => (b.pick actions).1
      | [only] => some only.1
      | tied => (b.pick (tied.map Prod.fst)).1 := by
  have hempty : actions.isEmpty = false := List.isEmpty_eq_false_iff.2 hne
  refine ⟨{ a with
    phase := .deciding
    random := (RandomSource.next a.random).2
    space := (a.evaluator.promising a.config.utilityThreshold actions a.space).2 }, rfl, ?_⟩
  unfold select
  rw [measured, ← promising_eq, leading, hempty, if_neg Bool.false_ne_true]
  simp only
  rw [if_neg (Bool.eq_false_iff.1 h)]
  generalize List.filter _ (a.evaluator.promising a.config.utilityThreshold actions a.space).1 = tied
  rcases tied with _ | ⟨only, _ | _⟩ <;> rfl

/-- An agent that explores picks any of the actions. -/
theorem select_of_explores {a : Agent ρ ν} {actions : List (Atom ν)} (hne : actions ≠ []) (h : ¬ a.Exploits) :
    ∃ b : Agent ρ ν, (a.select actions).1 = (b.pick actions).1 := by
  have hempty : actions.isEmpty = false := List.isEmpty_eq_false_iff.2 hne
  refine ⟨{ a with phase := .deciding, random := (RandomSource.next a.random).2 }, ?_⟩
  unfold select
  rw [hempty, if_neg Bool.false_ne_true]
  simp only
  rw [if_pos (Bool.not_eq_false _ ▸ h)]
  rfl

/-- Of several actions that lead one is chosen. -/
theorem exists_leading {a : Agent ρ ν} {actions : List (Atom ν)} (hne : actions ≠ []) (h : a.Exploits)
    (htied : leading (clearing a.config.utilityThreshold (a.measured actions)) ≠ []) :
    ∃ r ∈ leading (clearing a.config.utilityThreshold (a.measured actions)), (a.select actions).1 = some r.1 := by
  obtain ⟨b, -, hselect⟩ := select_eq hne h
  rw [hselect]
  generalize leading (clearing a.config.utilityThreshold (a.measured actions)) = tied at htied ⊢
  rcases tied with _ | ⟨only, _ | ⟨other, rest⟩⟩
  · exact absurd rfl htied
  · exact ⟨only, List.mem_singleton_self _, rfl⟩
  · have hmap : (only :: other :: rest).map Prod.fst ≠ [] := List.cons_ne_nil _ _
    obtain ⟨x, hx, hpick⟩ := b.exists_pick hmap
    obtain ⟨r, hr, rfl⟩ := List.mem_map.1 hx
    exact ⟨r, hr, hpick⟩

/-- From any actions one of them is chosen. -/
theorem exists_select (a : Agent ρ ν) {actions : List (Atom ν)} (hne : actions ≠ []) :
    ∃ x ∈ actions, (a.select actions).1 = some x := by
  by_cases h : a.Exploits
  · by_cases htied : leading (clearing a.config.utilityThreshold (a.measured actions)) = []
    · obtain ⟨b, -, hselect⟩ := select_eq hne h
      rw [hselect, htied]
      exact b.exists_pick hne
    · obtain ⟨r, hr, hselect⟩ := exists_leading hne h htied
      have hrated := (mem_clearing_iff.1 (List.mem_filter.1 hr).1).1
      refine ⟨r.1, ?_, hselect⟩
      rw [← a.evaluator.map_fst_measure actions a.space]
      exact List.mem_map_of_mem hrated
  · obtain ⟨b, hselect⟩ := select_of_explores hne h
    rw [hselect]
    exact b.exists_pick hne

end

/-- How an agent chooses from actions, given their utilities: some action always; when it does not explore
and there is a favourite, one of the favourites; and each of them for some word that is drawn. -/
structure Chooses (a : Agent ρ Double) (actions : List (Atom Double))
    (rated : List (Atom Double × Option Double)) : Prop where
  none_iff : (a.select actions).1 = none ↔ actions = []
  mem : ∀ x, (a.select actions).1 = some x → x ∈ actions
  favourite : a.Exploits → (∃ x u, (x, some u) ∈ rated ∧ Scalar.lt a.config.utilityThreshold u = true) →
    ∃ x u, (a.select actions).1 = some x ∧ Favourite a.config.utilityThreshold rated x u
  tied : actions.length ≤ UInt64.size → ∀ x u, Favourite a.config.utilityThreshold rated x u → ∃ word : UInt64,
    ∀ {σ : Type} [RandomSource σ] (source : σ), (a.reseeded source).Exploits →
      (RandomSource.next (RandomSource.next source).2).1 = word → ((a.reseeded source).select actions).1 = some x

theorem chooses_measured (a : Agent ρ Double) (actions : List (Atom Double)) :
    a.Chooses actions (a.measured actions) where
  none_iff := by
    constructor
    · intro hnone
      by_contra hne
      obtain ⟨x, -, hselect⟩ := a.exists_select hne
      rw [hselect] at hnone
      cases hnone
    · rintro rfl
      rfl
  mem x hx := by
    have hne : actions ≠ [] := by
      rintro rfl
      cases hx
    obtain ⟨y, hy, hselect⟩ := a.exists_select hne
    rw [hselect] at hx
    cases hx
    exact hy
  favourite h hclear := by
    obtain ⟨x, u, hrated, habove⟩ := hclear
    have hne : actions ≠ [] := by
      rintro rfl
      cases hrated
    have hclearing : clearing a.config.utilityThreshold (a.measured actions) ≠ [] :=
      List.ne_nil_of_mem (a := (x, u)) (mem_clearing_iff.2 ⟨hrated, habove⟩)
    obtain ⟨r, hr, hselect⟩ := exists_leading hne h (leading_ne_nil hclearing)
    exact ⟨r.1, r.2, hselect, mem_leading_iff.1 hr⟩
  tied hlength x u hfavourite := by
    have hmem := mem_leading_iff.2 hfavourite
    have hne : actions ≠ [] := by
      rintro rfl
      cases hfavourite.mem
    have hsize : (leading (clearing a.config.utilityThreshold (a.measured actions))).length ≤ UInt64.size := by
      have hcount := congrArg List.length (a.evaluator.map_fst_measure actions a.space)
      rw [List.length_map] at hcount
      exact ((List.length_filter_le _ _).trans (List.length_filterMap_le _ _)).trans (hcount.trans_le hlength)
    have hselect {σ : Type} [RandomSource σ] (source : σ) (h : (a.reseeded source).Exploits) :=
      select_eq (a := a.reseeded source) hne h
    have hsame {σ : Type} (source : σ) : leading (clearing (a.reseeded source).config.utilityThreshold
        ((a.reseeded source).measured actions)) = leading (clearing a.config.utilityThreshold (a.measured actions)) :=
      rfl
    simp only [hsame] at hselect
    generalize leading (clearing a.config.utilityThreshold (a.measured actions)) = tied at hmem hsize hselect
    rcases tied with _ | ⟨only, _ | ⟨other, rest⟩⟩
    · cases hmem
    · refine ⟨0, fun {σ} _ source hexploits _ => ?_⟩
      obtain ⟨b, -, hb⟩ := hselect source hexploits
      rw [hb, ← List.mem_singleton.1 hmem]
    · have hx := List.mem_map_of_mem (f := Prod.fst) hmem
      obtain ⟨word, hword⟩ := exists_word_pick (ν := Double) (by rwa [List.length_map]) hx
      refine ⟨word, fun {σ} _ source hexploits hnext => ?_⟩
      obtain ⟨b, hrandom, hb⟩ := hselect source hexploits
      rw [hb]
      exact hword b (hrandom ▸ hnext)

end Agent

end Atomspace
